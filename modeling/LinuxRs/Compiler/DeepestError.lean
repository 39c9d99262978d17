/-
Which error `Parser::parse` reports.

# The record

Along a run the stream holds the error of the furthest place where a
primitive parser failed (`Tracks`): backtracking moves the position only,
and a label puts its text in the place of an error where it started, no
further than a failure inside it. A parser that fails has failed at the place
it stops at or behind it.

# The exit that does not look

A run that fails reports what is recorded. A run that succeeds on a part of
the tokens reports the place it stopped at, and that is wrong exactly when a
primitive parser failed further on. It never is where what is given up has
failed at its first token (`Ahead.deepest`).
-/
import LinuxRs.Compiler.Combinators

namespace LinuxRs.Compiler

variable {Tok α β : Type} {s s' : Stream Tok}

-- ======== the record

def Stream.furthest (s : Stream Tok) : Nat := s.failures.foldr max 0

/-- The stream records its furthest failure. -/
structure Tracks (s : Stream Tok) : Prop where
  inside : s.pos ≤ s.tokens.length
  le : ∀ i ∈ s.failures, i ≤ s.farthest
  mem : s.failures ≠ [] → s.farthest ∈ s.failures
  zero : s.failures = [] → s.farthest = 0
  kept : s.failures ≠ [] → s.farthestErr ≠ none
  index : ∀ e, s.farthestErr = some e → e.index = s.farthest

/-- What a parser does to a stream: it moves ahead, and if it fails it has
failed at the place it stops at or behind it. -/
structure After (s : Stream Tok) (r : Except ParseError α) (s' : Stream Tok) :
    Prop where
  tokens : s'.tokens = s.tokens
  pos : s.pos ≤ s'.pos
  tracks : Tracks s'
  failed : ∀ e, r = .error e → s'.pos ≤ s'.farthest ∧ s'.failures ≠ []

def Tracked (p : Parser Tok α) : Prop :=
  ∀ s r s', Tracks s → p s = some (r, s') → After s r s'

theorem foldr_max_eq {l : List Nat} {m : Nat} (hle : ∀ i ∈ l, i ≤ m)
    (hmem : l ≠ [] → m ∈ l) (hzero : l = [] → m = 0) : l.foldr max 0 = m := by
  have hupper : ∀ l : List Nat, (∀ i ∈ l, i ≤ m) → l.foldr max 0 ≤ m := by
    intro l hl
    induction l with
    | nil => exact Nat.zero_le m
    | cons i l ih =>
      obtain ⟨hi, hrest⟩ := List.forall_mem_cons.mp hl
      exact Nat.max_le.mpr ⟨hi, ih hrest⟩
  have hlower : ∀ l : List Nat, m ∈ l → m ≤ l.foldr max 0 := by
    intro l hl
    induction l with
    | nil => cases hl
    | cons i l ih =>
      rcases List.mem_cons.mp hl with rfl | hl
      · exact Nat.le_max_left _ _
      · exact Nat.le_trans (ih hl) (Nat.le_max_right _ _)
  by_cases hnil : l = []
  · rw [hzero hnil, hnil]
    rfl
  · exact Nat.le_antisymm (hupper l hle) (hlower l (hmem hnil))

theorem Tracks.furthest (h : Tracks s) : s.furthest = s.farthest :=
  foldr_max_eq h.le h.mem h.zero

theorem tracks_new (tokens : List (Token Tok)) : Tracks (Stream.new tokens) where
  inside := Nat.zero_le _
  le i hi := by cases hi
  mem h := absurd rfl h
  zero _ := rfl
  kept h := absurd rfl h
  index e he := by cases he

theorem Tracks.rewind (h : Tracks s) {pos : Nat} (hpos : pos ≤ s.tokens.length) :
    Tracks (s.rewind pos) :=
  ⟨hpos, h.le, h.mem, h.zero, h.kept, h.index⟩

theorem error_index (s : Stream Tok) (expected : Text) :
    (s.error expected).index = s.pos := by
  unfold Stream.error
  split <;> rfl

/-- A label changes the text of the record and not its place. -/
theorem Tracks.record (h : Tracks s) (hfailed : s.failures ≠ [])
    (hpos : s.pos ≤ s.farthest) (expected : Text) :
    Tracks (s.record (s.error expected)) ∧
      (s.record (s.error expected)).pos = s.pos ∧
      (s.record (s.error expected)).farthest = s.farthest ∧
      (s.record (s.error expected)).failures = s.failures ∧
      (s.record (s.error expected)).tokens = s.tokens := by
  unfold Stream.record
  split
  next hle =>
    have heq : s.pos = s.farthest := Nat.le_antisymm hpos hle
    refine ⟨⟨h.inside, ?_, fun _ => ?_, fun hnil => absurd hnil hfailed,
      fun _ hn => (by cases hn), fun e he => ?_⟩, rfl, heq, rfl, rfl⟩
    · dsimp only
      rw [heq]
      exact h.le
    · dsimp only
      rw [heq]
      exact h.mem hfailed
    · obtain rfl := Option.some.inj he
      exact error_index s expected
  next => exact ⟨h, rfl, rfl, rfl, rfl⟩

/-- A failure is recorded unless one further on is recorded already. -/
theorem Tracks.fail (h : Tracks s) (expected : Text) :
    After s (.error (s.fail expected).1 : Except ParseError α)
      (s.fail expected).2 := by
  unfold Stream.fail Stream.record
  dsimp only
  split
  next hle =>
    refine ⟨rfl, Nat.le_refl _, ⟨h.inside, fun i hi => ?_, fun _ => ?_,
      fun hnil => ?_, fun _ hn => (by cases hn), fun e he => ?_⟩,
      fun e _ => ⟨Nat.le_refl _, ?_⟩⟩
    · rcases List.mem_append.mp hi with hi | hi
      · exact Nat.le_trans (h.le i hi) hle
      · exact Nat.le_of_eq (List.mem_singleton.mp hi)
    · exact List.mem_append_right _ (List.mem_singleton.mpr rfl)
    · simp at hnil
    · obtain rfl := Option.some.inj he
      exact error_index s expected
    · simp
  next hlt =>
    have hold : s.failures ≠ [] := by
      intro hnil
      have hz := h.zero hnil
      omega
    refine ⟨rfl, Nat.le_refl _, ⟨h.inside, fun i hi => ?_, fun _ => ?_,
      fun hnil => ?_, fun _ => h.kept hold, h.index⟩, fun e _ => ⟨?_, ?_⟩⟩
    · rcases List.mem_append.mp hi with hi | hi
      · exact h.le i hi
      · rw [List.mem_singleton.mp hi]
        dsimp only
        omega
    · exact List.mem_append_left _ (h.mem hold)
    · simp at hnil
    · dsimp only
      omega
    · simp

-- ======== combinators

theorem After.refl (h : Tracks s) (v : α) : After s (.ok v) s :=
  ⟨rfl, Nat.le_refl _, h, fun e he => by cases he⟩

theorem After.trans {s'' : Stream Tok} {r : Except ParseError α}
    {r' : Except ParseError β} (h : After s r s') (h' : After s' r' s'') :
    After s r' s'' :=
  ⟨h'.tokens.trans h.tokens, Nat.le_trans h.pos h'.pos, h'.tracks, h'.failed⟩

theorem After.rewound {e : ParseError} (h : After s (.error e : Except _ α) s')
    (hs : Tracks s) (r : Except ParseError β) :
    After s r (s'.rewind s.pos) := by
  obtain ⟨hle, hne⟩ := h.failed e rfl
  refine ⟨h.tokens, Nat.le_refl _, h.tracks.rewind ?_, fun _ _ =>
    ⟨Nat.le_trans h.pos hle, hne⟩⟩
  rw [h.tokens]
  exact hs.inside

theorem After.error {e : ParseError} (h : After s (.error e : Except _ α) s') :
    After s (.error e : Except _ β) s' :=
  ⟨h.tokens, h.pos, h.tracks, fun _ _ => h.failed e rfl⟩

theorem After.ok {v : α} (h : After s (.ok v) s') (w : β) :
    After s (.ok w) s' :=
  ⟨h.tokens, h.pos, h.tracks, fun e he => by cases he⟩

/-- The only parser that fails by itself records its failure. -/
theorem tracked_tokIf (pred : Tok → Bool) (label : Text) :
    Tracked (Parser.tokIf pred label) := by
  intro s r s' hs h
  unfold Parser.tokIf at h
  split at h
  next t hpeek =>
    split at h
    next =>
      obtain ⟨rfl, rfl⟩ := Prod.mk.inj (Option.some.inj h)
      have hbump : s.bump = { s with pos := s.pos + 1 } := by
        unfold Stream.bump
        rw [hpeek]
        rfl
      have hlt : s.pos < s.tokens.length := by
        by_contra hge
        unfold Stream.peek at hpeek
        rw [List.drop_eq_nil_of_le (Nat.le_of_not_lt hge)] at hpeek
        cases hpeek
      rw [hbump]
      exact ⟨rfl, Nat.le_succ _, ⟨hlt, hs.le, hs.mem, hs.zero, hs.kept, hs.index⟩,
        fun e he => by cases he⟩
    next =>
      obtain ⟨rfl, rfl⟩ := Prod.mk.inj (Option.some.inj h)
      exact hs.fail label
  next =>
    obtain ⟨rfl, rfl⟩ := Prod.mk.inj (Option.some.inj h)
    exact hs.fail label

theorem tracked_pure (value : α) :
    Tracked (Parser.pure value : Parser Tok α) := by
  intro s r s' hs h
  obtain ⟨rfl, rfl⟩ := Prod.mk.inj (Option.some.inj h)
  exact .refl hs value

theorem Tracked.map {p : Parser Tok α} (hp : Tracked p) (f : α → β) :
    Tracked (p.map f) := by
  intro s r s' hs h
  obtain ⟨⟨r', q⟩, hrun, heq⟩ := Option.map_eq_some_iff.mp h
  obtain ⟨rfl, rfl⟩ := Prod.mk.inj heq
  have hafter := hp s r' q hs hrun
  cases r' with
  | ok v => exact hafter.ok (f v)
  | error e => exact hafter.error

theorem Tracked.bind {p : Parser Tok α} {k : α → Parser Tok β} (hp : Tracked p)
    (hk : ∀ v, Tracked (k v)) : Tracked (p.bind k) := by
  intro s r s' hs h
  obtain ⟨⟨r', q⟩, hrun, hnext⟩ := Option.bind_eq_some_iff.mp h
  have hafter := hp s r' q hs hrun
  cases r' with
  | ok v => exact hafter.trans (hk v q r s' hafter.tracks hnext)
  | error e =>
    obtain ⟨rfl, rfl⟩ := Prod.mk.inj (Option.some.inj hnext)
    exact hafter.error

theorem Tracked.seq {p : Parser Tok α} (hp : Tracked p) : Tracked p.seq := by
  intro s r s' hs h
  obtain ⟨⟨r', q⟩, hrun, heq⟩ := Option.map_eq_some_iff.mp h
  have hafter := hp s r' q hs hrun
  cases r' with
  | ok v =>
    obtain ⟨rfl, rfl⟩ := Prod.mk.inj heq
    exact hafter
  | error e =>
    obtain ⟨rfl, rfl⟩ := Prod.mk.inj heq
    exact hafter.rewound hs _

theorem tracked_choiceFrom {rest : List (Parser Tok α)}
    (hrest : ∀ q ∈ rest, Tracked q) {e : ParseError} {start : Stream Tok}
    (hstart : Tracks start) (h : After start (.error e : Except _ α) s)
    {r : Except ParseError α}
    (hrun : Parser.choiceFrom start.pos e rest s = some (r, s')) :
    After start r s' := by
  induction rest generalizing e s with
  | nil =>
    obtain ⟨rfl, rfl⟩ := Prod.mk.inj (Option.some.inj hrun)
    exact h.rewound hstart _
  | cons p rest ih =>
    obtain ⟨hp, hrest⟩ := List.forall_mem_cons.mp hrest
    obtain ⟨⟨r', q⟩, hfirst, hnext⟩ := Option.bind_eq_some_iff.mp hrun
    have hback : After start (.error e : Except _ α) (s.rewind start.pos) :=
      h.rewound hstart _
    have hafter := hback.trans (hp _ r' q hback.tracks hfirst)
    cases r' with
    | ok v =>
      obtain ⟨rfl, rfl⟩ := Prod.mk.inj (Option.some.inj hnext)
      exact hafter
    | error e' => exact ih hrest hafter hnext

theorem Tracked.choice {p : Parser Tok α} {rest : List (Parser Tok α)}
    (hp : Tracked p) (hrest : ∀ q ∈ rest, Tracked q) :
    Tracked (Parser.choice p rest) := by
  intro s r s' hs h
  obtain ⟨⟨r', q⟩, hfirst, hnext⟩ := Option.bind_eq_some_iff.mp h
  have hafter := hp s r' q hs hfirst
  cases r' with
  | ok v =>
    obtain ⟨rfl, rfl⟩ := Prod.mk.inj (Option.some.inj hnext)
    exact hafter
  | error e => exact tracked_choiceFrom hrest hs hafter hnext

theorem Tracked.optional {p : Parser Tok α} (hp : Tracked p) :
    Tracked p.optional := by
  intro s r s' hs h
  obtain ⟨⟨r', q⟩, hrun, heq⟩ := Option.map_eq_some_iff.mp h
  have hafter := hp s r' q hs hrun
  cases r' with
  | ok v =>
    obtain ⟨rfl, rfl⟩ := Prod.mk.inj heq
    exact hafter.ok _
  | error e =>
    obtain ⟨rfl, rfl⟩ := Prod.mk.inj heq
    exact hafter.rewound hs _

theorem Tracked.manyLoop {p : Parser Tok α} (hp : Tracked p) (rounds : Nat)
    (out : List α) : Tracked (p.manyLoop rounds out) := by
  induction rounds generalizing out with
  | zero =>
    intro s r s' _ h
    cases h
  | succ rounds ih =>
    intro s r s' hs h
    obtain ⟨⟨r', q⟩, hrun, hnext⟩ := Option.bind_eq_some_iff.mp h
    have hafter := hp s r' q hs hrun
    cases r' with
    | ok v =>
      dsimp only at hnext
      split at hnext
      next =>
        obtain ⟨rfl, rfl⟩ := Prod.mk.inj (Option.some.inj hnext)
        exact hafter.ok _
      next => exact hafter.trans (ih _ q r s' hafter.tracks hnext)
    | error e =>
      obtain ⟨rfl, rfl⟩ := Prod.mk.inj (Option.some.inj hnext)
      exact hafter.rewound hs _

theorem Tracked.sepLoop {p : Parser Tok α} {sep : Parser Tok β} (hp : Tracked p)
    (hsep : Tracked sep) (rounds : Nat) (out : List α) :
    Tracked (p.sepLoop sep rounds out) := by
  induction rounds generalizing out with
  | zero =>
    intro s r s' _ h
    cases h
  | succ rounds ih =>
    intro s r s' hs h
    obtain ⟨⟨r', q⟩, hrun, hnext⟩ := Option.bind_eq_some_iff.mp h
    have hafter := hsep s r' q hs hrun
    cases r' with
    | ok w =>
      exact hafter.trans
        (hp.bind (fun v => ih (out ++ [v])) q r s' hafter.tracks hnext)
    | error e =>
      obtain ⟨rfl, rfl⟩ := Prod.mk.inj (Option.some.inj hnext)
      exact hafter.rewound hs _

theorem Tracked.sepBy {p : Parser Tok α} {sep : Parser Tok β} (hp : Tracked p)
    (hsep : Tracked sep) (rounds : Nat) : Tracked (p.sepBy rounds sep) := by
  intro s r s' hs h
  obtain ⟨⟨r', q⟩, hrun, hnext⟩ := Option.bind_eq_some_iff.mp h
  have hafter := hp s r' q hs hrun
  cases r' with
  | ok v =>
    exact hafter.trans (hp.sepLoop hsep rounds [v] q r s' hafter.tracks hnext)
  | error e =>
    obtain ⟨rfl, rfl⟩ := Prod.mk.inj (Option.some.inj hnext)
    exact hafter.rewound hs _

theorem Tracked.labeled {p : Parser Tok α} (hp : Tracked p) (what : Text) :
    Tracked (p.labeled what) := by
  intro s r s' hs h
  obtain ⟨⟨r', q⟩, hrun, heq⟩ := Option.map_eq_some_iff.mp h
  have hafter := hp s r' q hs hrun
  cases r' with
  | ok v =>
    obtain ⟨rfl, rfl⟩ := Prod.mk.inj heq
    exact hafter
  | error e =>
    obtain ⟨rfl, rfl⟩ := Prod.mk.inj heq
    have hback : After s (.error e : Except _ α) (q.rewind s.pos) :=
      hafter.rewound hs _
    obtain ⟨hle, hne⟩ := hback.failed e rfl
    obtain ⟨htracks, hpos, hfar, hfailures, htokens⟩ :=
      hback.tracks.record hne hle what
    refine ⟨htokens.trans hback.tokens, ?_, htracks, fun _ _ => ⟨?_, ?_⟩⟩
    · rw [hpos]
      exact hback.pos
    · rw [hpos, hfar]
      exact hle
    · rw [hfailures]
      exact hne

theorem Built.tracked [DecidableEq Tok] {name : Tok → Text} {rounds : Nat}
    {p : Parser Tok α} (h : Built name rounds p) : Tracked p := by
  induction h with
  | tok kind => exact tracked_tokIf _ _
  | tokIf pred label => exact tracked_tokIf pred label
  | pure value => exact tracked_pure value
  | map f _ ih => exact ih.map f
  | andThen _ _ ihp ihrest => exact ihp.bind fun v => ihrest.map _
  | seq _ ih => exact ih.seq
  | choice _ _ ihp ihrest => exact ihp.choice ihrest
  | optional _ ih => exact ih.optional
  | many _ ih => exact ih.manyLoop _ _
  | many1 _ ih => exact ih.bind fun v => ih.manyLoop _ _
  | sepBy _ _ ihp ihsep => exact ihp.sepBy ihsep _
  | sepBy1 _ _ ihp ihsep => exact ihp.bind fun v => ihp.sepLoop ihsep _ _
  | labeled what _ ih => exact ih.labeled what

-- ======== rewinding

/-- A failure leaves the stream where the parser started. -/
def Restores (p : Parser Tok α) : Prop :=
  ∀ s e s', p s = some (.error e, s') → s'.pos = s.pos

/-- A parser that takes the failures of `p` for an end leaves the stream
where `p` started. -/
def Absorbs (p : Parser Tok α) (q : Parser Tok β) : Prop :=
  (∀ s e s', q s ≠ some (.error e, s')) ∧
    ∀ s e s', p s = some (.error e, s') →
      ∃ v q', q s = some (.ok v, q') ∧ q'.pos = s.pos

theorem restores_seq (body : Parser Tok α) : Restores body.seq := by
  intro s e s' h
  obtain ⟨⟨r, q⟩, _, heq⟩ := Option.map_eq_some_iff.mp h
  cases r with
  | ok v => cases heq
  | error e' =>
    obtain ⟨-, rfl⟩ := Prod.mk.inj heq
    rfl

theorem choiceFrom_restores {rest : List (Parser Tok α)} {start : Nat}
    {last e : ParseError}
    (h : Parser.choiceFrom start last rest s = some (.error e, s')) :
    s'.pos = start := by
  induction rest generalizing last s with
  | nil =>
    obtain ⟨-, rfl⟩ := Prod.mk.inj (Option.some.inj h)
    rfl
  | cons p rest ih =>
    obtain ⟨⟨r, q⟩, _, hnext⟩ := Option.bind_eq_some_iff.mp h
    cases r with
    | ok v => cases hnext
    | error e' => exact ih hnext

theorem restores_choice (p : Parser Tok α) (rest : List (Parser Tok α)) :
    Restores (Parser.choice p rest) := by
  intro s e s' h
  obtain ⟨⟨r, q⟩, _, hnext⟩ := Option.bind_eq_some_iff.mp h
  cases r with
  | ok v => cases hnext
  | error e' => exact choiceFrom_restores hnext

theorem absorbs_optional (p : Parser Tok α) : Absorbs p p.optional := by
  refine ⟨fun s e s' h => ?_, fun s e s' h => ?_⟩
  · obtain ⟨⟨r, q⟩, _, heq⟩ := Option.map_eq_some_iff.mp h
    cases r with
    | ok v => cases heq
    | error e' => cases heq
  · refine ⟨none, s'.rewind s.pos, ?_, rfl⟩
    unfold Parser.optional
    rw [h]
    rfl

theorem manyLoop_succeeds (p : Parser Tok α) (rounds : Nat) (out : List α)
    (s s' : Stream Tok) (e : ParseError) :
    p.manyLoop rounds out s ≠ some (.error e, s') := by
  induction rounds generalizing out s with
  | zero => exact fun h => by cases h
  | succ rounds ih =>
    intro h
    obtain ⟨⟨r, q⟩, _, hnext⟩ := Option.bind_eq_some_iff.mp h
    cases r with
    | ok v =>
      dsimp only at hnext
      split at hnext
      next => cases hnext
      next => exact ih _ q hnext
    | error e' => cases hnext

theorem absorbs_many (p : Parser Tok α) (rounds : Nat) :
    Absorbs p (p.many (rounds + 1)) := by
  refine ⟨fun s e s' => manyLoop_succeeds p _ [] s s' e, fun s e s' h => ?_⟩
  refine ⟨[], s'.rewind s.pos, ?_, rfl⟩
  unfold Parser.many Parser.manyLoop
  rw [h]
  rfl

-- ======== the errors

theorem conclude_error_index {e err : ParseError}
    (h : After s (.error err : Except _ α) s')
    (hrun : Parser.conclude ((.error err : Except _ α), s') = .error e) :
    e.index = max s'.furthest s'.pos := by
  obtain ⟨hle, hne⟩ := h.failed err rfl
  obtain ⟨top, htop⟩ := Option.ne_none_iff_exists'.mp (h.tracks.kept hne)
  have he : top = e := by
    have hget : (s'.farthestErr.getD err) = e := Except.error.inj hrun
    rw [htop] at hget
    exact hget
  rw [h.tracks.furthest, Nat.max_eq_left hle, ← he]
  exact h.tracks.index top htop

theorem conclude_ok_index {e : ParseError} {v : α}
    (hrun : Parser.conclude ((.ok v : Except ParseError α), s') = .error e) :
    s'.pos ≠ s'.tokens.length ∧ e.index = s'.pos := by
  unfold Parser.conclude at hrun
  dsimp only at hrun
  split at hrun
  next => cases hrun
  next hne =>
    rw [← Except.error.inj hrun]
    exact ⟨hne, error_index s' _⟩

theorem conclude_ok_furthest {e : ParseError} {v : α}
    (h : After s (.ok v) s') (hbehind : ∀ i ∈ s'.failures, i ≤ s'.pos)
    (hrun : Parser.conclude ((.ok v : Except ParseError α), s') = .error e) :
    e.index = max s'.furthest s'.pos := by
  have hfar : s'.farthest ≤ s'.pos := by
    by_cases hnil : s'.failures = []
    · rw [h.tracks.zero hnil]
      exact Nat.zero_le _
    · exact hbehind _ (h.tracks.mem hnil)
  rw [(conclude_ok_index hrun).2, h.tracks.furthest, Nat.max_eq_right hfar]

/-- `Parser::parse` reports the furthest failure, or the first token that is
left if that is further, exactly if a run that succeeds and leaves tokens has
no failure behind the place where it stops; and the combinators rewind. -/
theorem parse_deepest_iff [DecidableEq Tok] {name : Tok → Text} {rounds : Nat}
    {p : Parser Tok α} (hp : Built name rounds p) (tokens : List (Token Tok))
    {r : Except ParseError α}
    (hrun : p (.new tokens) = some (r, s')) :
    ((∀ e, p.parse tokens = some (.error e) →
        e.index = max s'.furthest s'.pos) ↔
      ((∃ v, r = .ok v) → s'.pos < tokens.length →
        ∀ i ∈ s'.failures, i ≤ s'.pos)) ∧
      Restores p.seq ∧ (∀ rest, Restores (Parser.choice p rest)) ∧
      Absorbs p p.optional ∧ ∀ n, Absorbs p (p.many (n + 1)) := by
  refine ⟨?_, restores_seq p, restores_choice p, absorbs_optional p,
    absorbs_many p⟩
  have hafter : After (Stream.new tokens) r s' :=
    hp.tracked _ r s' (tracks_new tokens) hrun
  have htokens : s'.tokens = tokens := hafter.tokens
  have hparse : p.parse tokens = some (Parser.conclude (r, s')) := by
    unfold Parser.parse
    rw [hrun]
    rfl
  rw [hparse]
  cases r with
  | error err =>
    refine ⟨fun _ hok => ?_, fun _ e he => ?_⟩
    · obtain ⟨v, hv⟩ := hok
      cases hv
    · exact conclude_error_index hafter (Option.some.inj he)
  | ok v =>
    constructor
    · intro h _ hlt i hi
      have hne : s'.pos ≠ s'.tokens.length := by
        rw [htokens]
        exact Nat.ne_of_lt hlt
      have herr : Parser.conclude ((.ok v : Except ParseError α), s') =
          .error (s'.error "end of input".toList) := if_neg hne
      have hindex := h _ (congrArg some herr)
      rw [error_index, hafter.tracks.furthest] at hindex
      have hle := hafter.tracks.le i hi
      omega
    · intro h e he
      have hne := (conclude_ok_index (Option.some.inj he)).1
      have hinside := hafter.tracks.inside
      rw [htokens] at hne hinside
      exact conclude_ok_furthest hafter
        (h ⟨v, rfl⟩ (Nat.lt_of_le_of_ne hinside hne)) (Option.some.inj he)

def letters (kinds : List Char) : List (Token Char) :=
  kinds.zipIdx.map fun k => ⟨k.1, [k.1], 1, k.2 + 1⟩

def pair : Parser Char (Token Char × Token Char) :=
  ((Parser.tok (fun k => [k]) 'a').andThen (.tok (fun k => [k]) 'b')).seq

theorem built_pair (rounds : Nat) : Built (fun k => [k]) rounds pair :=
  .seq (.andThen (.tok 'a') (.tok 'b'))

/-- On `a c` the pair fails at its second token and says so. -/
theorem parse_pair_deepest :
    (∀ e, pair.parse (letters ['a', 'c']) = some (.error e) →
      e.index = 1) ∧ (pair.parse (letters ['a', 'c'])).isSome := by
  refine ⟨fun e he => ?_, by decide⟩
  have hrun : pair (.new (letters ['a', 'c'])) =
      some ((pair (.new (letters ['a', 'c']))).get (by decide)) := by
    rw [Option.some_get]
  have hiff := (parse_deepest_iff (built_pair 3) _ hrun).1
  have hindex := Iff.mpr hiff (fun hok => absurd hok (by
    intro hv
    obtain ⟨v, hv⟩ := hv
    cases hv)) e he
  rw [hindex]
  rfl

/-- Pairs of `a` and `b` on `a c`: the second token is where a parser failed,
the first is what is reported. -/
theorem many_pair_shallow :
    Built (fun k => [k]) 3 (pair.many 3) ∧
      ∃ r s' e, pair.many 3 (.new (letters ['a', 'c'])) = some (r, s') ∧
        (pair.many 3).parse (letters ['a', 'c']) = some (.error e) ∧
        s'.furthest = 1 ∧ s'.pos = 0 ∧ e.index = 0 := by
  refine ⟨.many (built_pair 3), ?_⟩
  exact ⟨_, _, _, rfl, rfl, rfl, rfl, rfl⟩

-- ======== one token ahead

/-- A success leaves no new failure behind the place where it stops. -/
def Settles (p : Parser Tok α) : Prop :=
  ∀ s v s', p s = some (.ok v, s') →
    s.pos ≤ s'.pos ∧ ∀ i ∈ s'.failures, i ∈ s.failures ∨ i ≤ s'.pos

/-- A failure is one at the first token: an alternative that is given up has
taken nothing. -/
def FailsFirst (p : Parser Tok α) : Prop :=
  ∀ s e s', p s = some (.error e, s') →
    ∀ i ∈ s'.failures, i ∈ s.failures ∨ i ≤ s.pos

theorem settles_tokIf (pred : Tok → Bool) (label : Text) :
    Settles (Parser.tokIf pred label) := by
  intro s v s' h
  unfold Parser.tokIf at h
  split at h
  next t hpeek =>
    split at h
    next =>
      obtain ⟨-, rfl⟩ := Prod.mk.inj (Option.some.inj h)
      have hbump : s.bump = { s with pos := s.pos + 1 } := by
        unfold Stream.bump
        rw [hpeek]
        rfl
      rw [hbump]
      exact ⟨Nat.le_succ _, fun i hi => .inl hi⟩
    next => cases h
  next => cases h

theorem settles_pure (value : α) :
    Settles (Parser.pure value : Parser Tok α) := by
  intro s v s' h
  obtain ⟨-, rfl⟩ := Prod.mk.inj (Option.some.inj h)
  exact ⟨Nat.le_refl _, fun i hi => .inl hi⟩

theorem Settles.map {p : Parser Tok α} (hp : Settles p) (f : α → β) :
    Settles (p.map f) := by
  intro s v s' h
  obtain ⟨⟨r, q⟩, hrun, heq⟩ := Option.map_eq_some_iff.mp h
  cases r with
  | ok w =>
    obtain ⟨-, rfl⟩ := Prod.mk.inj heq
    exact hp s w q hrun
  | error e => cases heq

theorem Settles.bind {p : Parser Tok α} {k : α → Parser Tok β} (hp : Settles p)
    (hk : ∀ v, Settles (k v)) : Settles (p.bind k) := by
  intro s v s' h
  obtain ⟨⟨r, q⟩, hrun, hnext⟩ := Option.bind_eq_some_iff.mp h
  cases r with
  | ok w =>
    obtain ⟨hpos, hfirst⟩ := hp s w q hrun
    obtain ⟨hpos', hrest⟩ := hk w q v s' hnext
    refine ⟨Nat.le_trans hpos hpos', fun i hi => ?_⟩
    rcases hrest i hi with hi | hi
    · exact (hfirst i hi).imp_right fun h => Nat.le_trans h hpos'
    · exact .inr hi
  | error e => cases hnext

theorem Settles.seq {p : Parser Tok α} (hp : Settles p) : Settles p.seq := by
  intro s v s' h
  obtain ⟨⟨r, q⟩, hrun, heq⟩ := Option.map_eq_some_iff.mp h
  cases r with
  | ok w =>
    obtain ⟨-, rfl⟩ := Prod.mk.inj heq
    exact hp s w q hrun
  | error e => cases heq

/-- What is done after a failure at the first token, from there again. -/
theorem Settles.resume {p : Parser Tok α} {start q : Stream Tok} {v : α}
    (hp : Settles p)
    (hfailed : ∀ i ∈ q.failures, i ∈ start.failures ∨ i ≤ start.pos)
    (hrun : p (q.rewind start.pos) = some (.ok v, s')) :
    start.pos ≤ s'.pos ∧
      ∀ i ∈ s'.failures, i ∈ start.failures ∨ i ≤ s'.pos := by
  obtain ⟨hpos, hnew⟩ := hp _ v s' hrun
  refine ⟨hpos, fun i hi => ?_⟩
  rcases hnew i hi with hi | hi
  · exact (hfailed i hi).imp_right fun h => Nat.le_trans h hpos
  · exact .inr hi

theorem settles_choiceFrom {rest : List (Parser Tok α)}
    (hrest : ∀ q ∈ rest, Settles q ∧ FailsFirst q) {last : ParseError}
    {start q : Stream Tok} {v : α}
    (hfailed : ∀ i ∈ q.failures, i ∈ start.failures ∨ i ≤ start.pos)
    (hrun : Parser.choiceFrom start.pos last rest q = some (.ok v, s')) :
    start.pos ≤ s'.pos ∧
      ∀ i ∈ s'.failures, i ∈ start.failures ∨ i ≤ s'.pos := by
  induction rest generalizing last q with
  | nil => cases hrun
  | cons p rest ih =>
    obtain ⟨⟨hp, hfirst⟩, hrest⟩ := List.forall_mem_cons.mp hrest
    obtain ⟨⟨r, q'⟩, hrun', hnext⟩ := Option.bind_eq_some_iff.mp hrun
    cases r with
    | ok w =>
      obtain ⟨-, rfl⟩ := Prod.mk.inj (Option.some.inj hnext)
      exact hp.resume hfailed hrun'
    | error e =>
      refine ih hrest (fun i hi => ?_) hnext
      rcases hfirst _ e q' hrun' i hi with hi | hi
      · exact hfailed i hi
      · exact .inr hi

theorem Settles.choice {p : Parser Tok α} {rest : List (Parser Tok α)}
    (hp : Settles p) (hfirst : FailsFirst p)
    (hrest : ∀ q ∈ rest, Settles q ∧ FailsFirst q) :
    Settles (Parser.choice p rest) := by
  intro s v s' h
  obtain ⟨⟨r, q⟩, hrun, hnext⟩ := Option.bind_eq_some_iff.mp h
  cases r with
  | ok w =>
    obtain ⟨-, rfl⟩ := Prod.mk.inj (Option.some.inj hnext)
    exact hp s w q hrun
  | error e => exact settles_choiceFrom hrest (hfirst s e q hrun) hnext

theorem Settles.optional {p : Parser Tok α} (hp : Settles p)
    (hfirst : FailsFirst p) : Settles p.optional := by
  intro s v s' h
  obtain ⟨⟨r, q⟩, hrun, heq⟩ := Option.map_eq_some_iff.mp h
  cases r with
  | ok w =>
    obtain ⟨-, rfl⟩ := Prod.mk.inj heq
    exact hp s w q hrun
  | error e =>
    obtain ⟨-, rfl⟩ := Prod.mk.inj heq
    exact ⟨Nat.le_refl _, hfirst s e q hrun⟩

theorem Settles.manyLoop {p : Parser Tok α} (hp : Settles p)
    (hfirst : FailsFirst p) (rounds : Nat) (out : List α) :
    Settles (p.manyLoop rounds out) := by
  induction rounds generalizing out with
  | zero => exact fun s v s' h => by cases h
  | succ rounds ih =>
    intro s v s' h
    obtain ⟨⟨r, q⟩, hrun, hnext⟩ := Option.bind_eq_some_iff.mp h
    cases r with
    | ok w =>
      dsimp only at hnext
      split at hnext
      next =>
        obtain ⟨-, rfl⟩ := Prod.mk.inj (Option.some.inj hnext)
        exact hp s w q hrun
      next =>
        refine (hp.bind fun v => ih (out ++ [v])) s v s' ?_
        unfold Parser.bind
        rw [hrun]
        exact hnext
    | error e =>
      obtain ⟨-, rfl⟩ := Prod.mk.inj (Option.some.inj hnext)
      exact ⟨Nat.le_refl _, hfirst s e q hrun⟩

theorem Settles.sepLoop {p : Parser Tok α} {sep : Parser Tok β}
    (hp : Settles p) (hsep : Settles sep) (hfirst : FailsFirst sep)
    (rounds : Nat) (out : List α) : Settles (p.sepLoop sep rounds out) := by
  induction rounds generalizing out with
  | zero => exact fun s v s' h => by cases h
  | succ rounds ih =>
    intro s v s' h
    obtain ⟨⟨r, q⟩, hrun, hnext⟩ := Option.bind_eq_some_iff.mp h
    cases r with
    | ok w =>
      refine (hsep.bind fun _ => hp.bind fun v => ih (out ++ [v])) s v s' ?_
      unfold Parser.bind
      rw [hrun]
      exact hnext
    | error e =>
      obtain ⟨-, rfl⟩ := Prod.mk.inj (Option.some.inj hnext)
      exact ⟨Nat.le_refl _, hfirst s e q hrun⟩

/-- A parser of one token takes nothing when it fails. -/
theorem failsFirst_tokIf (pred : Tok → Bool) (label : Text) :
    FailsFirst (Parser.tokIf pred label) := by
  have hfail : ∀ (s : Stream Tok) (i : Nat), i ∈ (s.fail label).2.failures →
      i ∈ s.failures ∨ i ≤ s.pos := by
    intro s i hi
    have heq : (s.fail label).2.failures = s.failures ++ [s.pos] := by
      unfold Stream.fail Stream.record
      split <;> rfl
    rw [heq] at hi
    exact (List.mem_append.mp hi).imp_right fun h =>
      Nat.le_of_eq (List.mem_singleton.mp h)
  intro s e s' h
  unfold Parser.tokIf at h
  split at h
  next =>
    split at h
    next => cases h
    next =>
      obtain ⟨-, rfl⟩ := Prod.mk.inj (Option.some.inj h)
      exact hfail s
  next =>
    obtain ⟨-, rfl⟩ := Prod.mk.inj (Option.some.inj h)
    exact hfail s

theorem Settles.sepBy {p : Parser Tok α} {sep : Parser Tok β}
    (hp : Settles p) (hfirst : FailsFirst p) (hsep : Settles sep)
    (hmark : FailsFirst sep) (rounds : Nat) :
    Settles (p.sepBy rounds sep) := by
  intro s v s' h
  obtain ⟨⟨r, q⟩, hrun, hnext⟩ := Option.bind_eq_some_iff.mp h
  cases r with
  | ok w =>
    refine (hp.bind fun v => hp.sepLoop hsep hmark rounds [v]) s v s' ?_
    unfold Parser.bind
    rw [hrun]
    exact hnext
  | error e =>
    obtain ⟨-, rfl⟩ := Prod.mk.inj (Option.some.inj hnext)
    exact ⟨Nat.le_refl _, hfirst s e q hrun⟩

theorem Settles.labeled {p : Parser Tok α} (hp : Settles p) (what : Text) :
    Settles (p.labeled what) := by
  intro s v s' h
  obtain ⟨⟨r, q⟩, hrun, heq⟩ := Option.map_eq_some_iff.mp h
  cases r with
  | ok w =>
    obtain ⟨-, rfl⟩ := Prod.mk.inj heq
    exact hp s w q hrun
  | error e => cases heq

/-- What may be given up, an alternative, an option or a part that is
repeated, fails at its first token. -/
inductive Ahead [DecidableEq Tok] (name : Tok → Text) (rounds : Nat) :
    {α : Type} → Parser Tok α → Prop
  | tok (kind : Tok) : Ahead name rounds (.tok name kind)
  | tokIf (pred : Tok → Bool) (label : Text) :
      Ahead name rounds (.tokIf pred label)
  | pure {α : Type} (value : α) : Ahead name rounds (.pure value)
  | map {α β : Type} (f : α → β) {p : Parser Tok α} :
      Ahead name rounds p → Ahead name rounds (p.map f)
  | andThen {α β : Type} {p : Parser Tok α} {rest : Parser Tok β} :
      Ahead name rounds p → Ahead name rounds rest →
        Ahead name rounds (p.andThen rest)
  | seq {α : Type} {body : Parser Tok α} :
      Ahead name rounds body → Ahead name rounds body.seq
  | choice {α : Type} {p : Parser Tok α} {rest : List (Parser Tok α)} :
      Ahead name rounds p → FailsFirst p → (∀ q ∈ rest, Ahead name rounds q) →
        (∀ q ∈ rest, FailsFirst q) → Ahead name rounds (.choice p rest)
  | optional {α : Type} {p : Parser Tok α} :
      Ahead name rounds p → FailsFirst p → Ahead name rounds p.optional
  | many {α : Type} {p : Parser Tok α} :
      Ahead name rounds p → FailsFirst p → Ahead name rounds (p.many rounds)
  | many1 {α : Type} {p : Parser Tok α} :
      Ahead name rounds p → FailsFirst p → Ahead name rounds (p.many1 rounds)
  | sepBy {α β : Type} {p : Parser Tok α} {sep : Parser Tok β} :
      Ahead name rounds p → FailsFirst p → Ahead name rounds sep →
        FailsFirst sep → Ahead name rounds (p.sepBy rounds sep)
  | sepBy1 {α β : Type} {p : Parser Tok α} {sep : Parser Tok β} :
      Ahead name rounds p → Ahead name rounds sep → FailsFirst sep →
        Ahead name rounds (p.sepBy1 rounds sep)
  | labeled {α : Type} (what : Text) {p : Parser Tok α} :
      Ahead name rounds p → Ahead name rounds (p.labeled what)

variable [DecidableEq Tok] {name : Tok → Text} {rounds : Nat} {p : Parser Tok α}

theorem Ahead.built (h : Ahead name rounds p) : Built name rounds p := by
  induction h with
  | tok kind => exact .tok kind
  | tokIf pred label => exact .tokIf pred label
  | pure value => exact .pure value
  | map f _ ih => exact .map f ih
  | andThen _ _ ihp ihrest => exact .andThen ihp ihrest
  | seq _ ih => exact .seq ih
  | choice _ _ _ _ ihp ihrest => exact .choice ihp ihrest
  | optional _ _ ih => exact .optional ih
  | many _ _ ih => exact .many ih
  | many1 _ _ ih => exact .many1 ih
  | sepBy _ _ _ _ ihp ihsep => exact .sepBy ihp ihsep
  | sepBy1 _ _ _ ihp ihsep => exact .sepBy1 ihp ihsep
  | labeled what _ ih => exact .labeled what ih

theorem Ahead.settles (h : Ahead name rounds p) : Settles p := by
  induction h with
  | tok kind => exact settles_tokIf _ _
  | tokIf pred label => exact settles_tokIf pred label
  | pure value => exact settles_pure value
  | map f _ ih => exact ih.map f
  | andThen _ _ ihp ihrest => exact ihp.bind fun v => ihrest.map _
  | seq _ ih => exact ih.seq
  | choice _ hp _ hrest ihp ihrest =>
    exact ihp.choice hp fun q hq => ⟨ihrest q hq, hrest q hq⟩
  | optional _ hp ih => exact ih.optional hp
  | many _ hp ih => exact ih.manyLoop hp _ _
  | many1 _ hp ih => exact ih.bind fun v => ih.manyLoop hp _ _
  | sepBy _ hp _ hsep ihp ihsep => exact ihp.sepBy hp ihsep hsep _
  | sepBy1 _ _ hsep ihp ihsep =>
    exact ihp.bind fun v => ihp.sepLoop ihsep hsep _ _
  | labeled what _ ih => exact ih.labeled what

/-- A parser that looks one token ahead reports the furthest failure. -/
theorem Ahead.deepest (h : Ahead name rounds p) {tokens : List (Token Tok)}
    {r : Except ParseError α} {e : ParseError}
    (hrun : p (.new tokens) = some (r, s'))
    (hparse : p.parse tokens = some (.error e)) :
    e.index = max s'.furthest s'.pos := by
  have hafter : After (Stream.new tokens) r s' :=
    h.built.tracked _ r s' (tracks_new tokens) hrun
  have hend : Parser.conclude (r, s') = .error e := by
    unfold Parser.parse at hparse
    rw [hrun] at hparse
    exact Option.some.inj hparse
  cases r with
  | error err => exact conclude_error_index hafter hend
  | ok v =>
    refine conclude_ok_furthest hafter (fun i hi => ?_) hend
    exact ((h.settles _ v s' hrun).2 i hi).resolve_left List.not_mem_nil

example (kind comma : Tok) :
    Ahead name rounds ((Parser.tok name kind).sepBy rounds (.tok name comma)) :=
  .sepBy (.tok kind) (failsFirst_tokIf _ _) (.tok comma) (failsFirst_tokIf _ _)

end LinuxRs.Compiler
