/-
The invariant of the frames and the memory spaces, and what keeps it.

# The invariant

The count of a frame is the number of its handles: page tables, pages of
spaces, and the handles `K` that the rest of the kernel has. A present entry
of a user's table maps the frame whose handle the space has, or a frame of
the kernel's low memory, which it may not write; where it may write, the
frame has one handle. `T` is the page tables that are in use, those of a
space that is being made included.

# What a page shows

A page shows its words, or which frame of low memory it is. A step says
what the pages show after it.
-/
import LinuxRs.Mm.Space
import LinuxRs.Lib.RefCount

namespace LinuxRs.Mm

open Lib (Ledger)
open Function (update update_self update_of_ne)

/-- The frames that are handed out: those that were free after boot. -/
def Tracked (boot : Memory) (f : Nat) : Prop :=
  unpagedPages ≤ f ∧ f < unpagedPages + pagingPages ∧ boot.memMap f = 0

/-- The place of a page in its space. -/
def place (p : LinPage) : Fin 16 × Fin 1024 := (p.1.2, p.2)

/-- What an entry says of the handle of its page. -/
def EntryOk (count : Nat → Nat) (handle : Option Nat) (e : Word) : Prop :=
  if isPresent e then
    (handle = some (ppn e) ∧ (isWritable e = true → count (ppn e) = 1)) ∨
      (handle = none ∧ ppn e < unpagedPages ∧ isWritable e = false)
  else handle = none

/-- The invariant. -/
structure Inv (boot : Memory) (K : List Nat) (T : Block → Option Nat)
    (s : Memory) : Prop where
  ledger : Ledger place (Tracked boot) s.memMap K T s.dataFrames
  user : ∀ b t, T b = some t → b.1 ≠ task0
  bare : ∀ p : LinPage, T p.1 = none → s.dataFrames p = none
  entries : ∀ (p : LinPage) t, T p.1 = some t →
    EntryOk s.memMap (s.dataFrames p) (s.mem t p.2)
  low : ∀ f < unpagedPages, s.mem f = boot.mem f
  reserved : ∀ f, boot.memMap f ≠ 0 → s.memMap f ≠ 0

/-- The page directory has the tables in use, and the kernel's own. -/
structure Dirs (boot : Memory) (T : Block → Option Nat) (s : Memory) :
    Prop where
  kernel : ∀ b, b.1 = task0 → s.dir b = boot.dir b
  present : ∀ b t, T b = some t → s.dir b = userPageTable t
  absent : ∀ b, b.1 ≠ task0 → T b = none → isPresent (s.dir b) = false

/-- What a page shows. -/
abbrev Shown := Option (Nat ⊕ Page)

/-- What the page of an entry shows. -/
def shown (mem : Nat → Page) (e : Word) : Shown :=
  if isPresent e then
    some (if ppn e < unpagedPages then .inl (ppn e) else .inr (mem (ppn e)))
  else none

/-- What a page shows, by the tables in use. -/
def tableView (T : Block → Option Nat) (mem : Nat → Page) (p : LinPage) :
    Shown :=
  (T p.1).bind fun t => shown mem (mem t p.2)

/-- What a page shows. -/
def Memory.view (s : Memory) (p : LinPage) : Shown :=
  (s.entry p).bind (shown s.mem)

section Entries

variable {count count' : Nat → Nat} {o : Option Nat} {e e' : Word}
  {mem mem' : Nat → Page}

theorem EntryOk.congr (h : EntryOk count o e)
    (hcount : ∀ f, o = some f → isWritable e = true → count f = 1 →
      count' f = 1) : EntryOk count' o e := by
  unfold EntryOk at h ⊢
  split at h
  next hpresent =>
    rw [if_pos hpresent]
    rcases h with ⟨ho, hone⟩ | hlow
    · exact .inl ⟨ho, fun hw => hcount _ ho hw (hone hw)⟩
    · exact .inr hlow
  next hpresent =>
    rw [if_neg hpresent]
    exact h

theorem EntryOk.handle (h : EntryOk count o e) {f : Nat} (ho : o = some f) :
    isPresent e = true ∧ ppn e = f ∧ (isWritable e = true → count f = 1) := by
  subst ho
  unfold EntryOk at h
  split at h
  next hpresent =>
    rcases h with ⟨ho, hone⟩ | ⟨ho, -⟩
    · obtain rfl := Option.some.inj ho
      exact ⟨hpresent, rfl, hone⟩
    · cases ho
  next => cases h

theorem EntryOk.writable (h : EntryOk count o e) (hp : isPresent e = true)
    (hw : isWritable e = true) : o = some (ppn e) ∧ count (ppn e) = 1 := by
  unfold EntryOk at h
  rw [if_pos hp] at h
  rcases h with ⟨ho, hone⟩ | ⟨-, -, hno⟩
  · exact ⟨ho, hone hw⟩
  · rw [hw] at hno
    cases hno

theorem entryOk_newEntry {f : Nat} (hf : f < 1048576) (hone : count f = 1) :
    EntryOk count (some f) (newEntry f userRw) := by
  unfold EntryOk
  rw [if_pos (isPresent_newEntry f), ppn_userRw hf]
  exact .inl ⟨rfl, fun _ => hone⟩

theorem EntryOk.replace (h : EntryOk count o e)
    (hpresent : isPresent e' = isPresent e) (hppn : ppn e' = ppn e)
    (hwrite : isWritable e' = true → isWritable e = true) :
    EntryOk count o e' := by
  unfold EntryOk at h ⊢
  rw [hpresent, hppn]
  split at h
  next hp =>
    rw [if_pos hp]
    rcases h with ⟨ho, hone⟩ | ⟨ho, hlow, hno⟩
    · exact .inl ⟨ho, fun hw => hone (hwrite hw)⟩
    · refine .inr ⟨ho, hlow, Bool.eq_false_iff.mpr fun hw => ?_⟩
      rw [hwrite hw] at hno
      cases hno
  next hp =>
    rw [if_neg hp]
    exact h

theorem shown_replace (hpresent : isPresent e' = isPresent e)
    (hppn : ppn e' = ppn e) : shown mem e' = shown mem e := by
  unfold shown
  rw [hpresent, hppn]

theorem shown_congr (h : EntryOk count o e)
    (hmem : ∀ f, o = some f → mem' f = mem f) :
    shown mem' e = shown mem e := by
  unfold shown
  unfold EntryOk at h
  split at h
  next hp =>
    rw [if_pos hp, if_pos hp]
    rcases h with ⟨ho, -⟩ | ⟨-, hlow, -⟩
    · rw [hmem _ ho]
    · rw [if_pos hlow, if_pos hlow]
  next hp => rw [if_neg hp, if_neg hp]

theorem entryOk_zero (count : Nat → Nat) : EntryOk count none 0#32 := by
  unfold EntryOk
  rw [if_neg (by decide)]

theorem shown_zero (mem : Nat → Page) : shown mem 0#32 = none :=
  if_neg (by decide)

theorem shown_newEntry {f : Nat} (hlow : unpagedPages ≤ f)
    (hf : f < 1048576) :
    shown mem (newEntry f userRw) = some (.inr (mem f)) := by
  unfold shown
  rw [if_pos (isPresent_newEntry f), ppn_userRw hf,
    if_neg (Nat.not_lt.mpr hlow)]

end Entries

section Steps

variable {boot s s' : Memory} {K : List Nat} {T : Block → Option Nat}
  {p q : LinPage} {f t : Nat}

theorem Tracked.lt (h : Tracked boot f) : f < 1048576 := by
  have hlt := h.2.1
  unfold unpagedPages pagingPages at hlt
  omega

-- ======== what the frames of the invariant are

theorem Inv.table_tracked (h : Inv boot K T s) {b : Block}
    (hb : T b = some t) : Tracked boot t :=
  h.ledger.single_tracked b t hb

theorem Inv.data_tracked (h : Inv boot K T s)
    (hp : s.dataFrames p = some f) : Tracked boot f :=
  h.ledger.shared_tracked p f hp

theorem Inv.tableView_congr (h : Inv boot K T s) {mem' : Nat → Page}
    (htable : ∀ t, T p.1 = some t → mem' t p.2 = s.mem t p.2)
    (hdata : ∀ f, s.dataFrames p = some f → mem' f = s.mem f) :
    tableView T mem' p = tableView T s.mem p := by
  unfold tableView
  cases hT : T p.1 with
  | none => rfl
  | some t =>
    show shown mem' (mem' t p.2) = shown s.mem (s.mem t p.2)
    rw [htable t hT]
    exact shown_congr (h.entries p t hT) hdata

theorem Dirs.view (h : Dirs boot T s) (hinv : Inv boot K T s)
    (hp : p.1.1 ≠ task0) : s.view p = tableView T s.mem p := by
  unfold Memory.view Memory.entry tableView
  cases hT : T p.1 with
  | none =>
    rw [if_neg (Bool.eq_false_iff.mp (h.absent p.1 hp hT))]
    rfl
  | some t =>
    rw [h.present p.1 t hT, userPageTable, if_pos (isPresent_newEntry t),
      ppn_userRw (hinv.table_tracked hT).lt]
    rfl

theorem Dirs.entry (h : Dirs boot T s) (hinv : Inv boot K T s)
    (hT : T p.1 = some t) : s.entry p = some (s.mem t p.2) := by
  unfold Memory.entry
  rw [h.present p.1 t hT, userPageTable, if_pos (isPresent_newEntry t),
    ppn_userRw (hinv.table_tracked hT).lt]

theorem Dirs.setEntry (h : Dirs boot T s) (hinv : Inv boot K T s)
    (hT : T p.1 = some t) (e : Word) :
    s.setEntry p e = some (s.setWord t p.2 e) := by
  unfold Memory.setEntry
  rw [h.present p.1 t hT, userPageTable, if_pos (isPresent_newEntry t),
    ppn_userRw (hinv.table_tracked hT).lt]

theorem Dirs.setPte (h : Dirs boot T s) (hinv : Inv boot K T s)
    (hT : T p.1 = some t) (e : Word) :
    s.setPte p.1.1 p e = some (s.setWord t p.2 e) :=
  (Memory.setPte_own s p e).trans (h.setEntry hinv hT e)

theorem Dirs.present_iff (h : Dirs boot T s) {b : Block} (hb : b.1 ≠ task0) :
    isPresent (s.dir b) = (T b).isSome := by
  cases hT : T b with
  | none => exact h.absent b hb hT
  | some t =>
    rw [h.present b t hT]
    exact isPresent_newEntry t

-- ======== memory that no page shows

theorem Inv.setMem (h : Inv boot K T s) (hlow : unpagedPages ≤ f)
    (hT : ∀ b, T b ≠ some f) (c : Page) :
    Inv boot K T { s with mem := update s.mem f c } where
  ledger := h.ledger
  user := h.user
  bare := h.bare
  entries := by
    intro p t ht
    have hne : t ≠ f := fun heq => hT p.1 (heq ▸ ht)
    show EntryOk s.memMap (s.dataFrames p) (update s.mem f c t p.2)
    rw [update_of_ne hne]
    exact h.entries p t ht
  low := by
    intro g hg
    show update s.mem f c g = _
    rw [update_of_ne (by omega)]
    exact h.low g hg
  reserved := h.reserved

theorem Inv.tableView_setMem (h : Inv boot K T s)
    (hT : ∀ b, T b ≠ some f) (hD : s.dataFrames p ≠ some f) (c : Page) :
    tableView T (update s.mem f c) p = tableView T s.mem p := by
  refine h.tableView_congr (fun t ht => ?_) fun g hg => ?_
  · have hne : t ≠ f := fun heq => hT p.1 (heq ▸ ht)
    rw [update_of_ne hne]
  · have hne : g ≠ f := fun heq => hD (heq ▸ hg)
    rw [update_of_ne hne]

-- ======== taking and giving back

theorem rposition_some {P : Nat → Bool} {n i : Nat}
    (h : rposition P n = some i) : i < n ∧ P i = true := by
  induction n with
  | zero => cases h
  | succ n ih =>
    unfold rposition at h
    split at h
    next hp =>
      obtain rfl := Option.some.inj h
      exact ⟨Nat.lt_succ_self _, hp⟩
    next =>
      obtain ⟨hi, hp⟩ := ih h
      exact ⟨Nat.lt_succ_of_lt hi, hp⟩

theorem rposition_none {P : Nat → Bool} {n : Nat} (h : rposition P n = none) :
    ∀ i < n, P i = false := by
  induction n with
  | zero => exact fun i hi => absurd hi (Nat.not_lt_zero i)
  | succ n ih =>
    unfold rposition at h
    split at h
    next => cases h
    next hp =>
      intro i hi
      rcases Nat.lt_succ_iff_lt_or_eq.mp hi with hi | rfl
      · exact ih h i hi
      · simpa using hp

theorem Inv.free_tracked (h : Inv boot K T s) (hlow : unpagedPages ≤ f)
    (hhigh : f < unpagedPages + pagingPages) (hzero : s.memMap f = 0) :
    Tracked boot f := by
  refine ⟨hlow, hhigh, ?_⟩
  by_contra hres
  exact h.reserved f hres hzero

theorem Inv.take (h : Inv boot K T s) (hf : Tracked boot f)
    (hzero : s.memMap f = 0) (c : Page) :
    Inv boot (f :: K) T { s with
      memMap := update s.memMap f 1
      mem := update s.mem f c } := by
  obtain ⟨-, hT, hD⟩ := h.ledger.no_handle hzero
  have hset := h.setMem hf.1 hT c
  refine ⟨hset.ledger.take hf hzero, hset.user, hset.bare, fun p t ht => ?_,
    hset.low, fun g hg => ?_⟩
  · refine (hset.entries p t ht).congr fun g hg _ hone => ?_
    have hne : g ≠ f := fun heq => hD p (heq ▸ hg)
    show update s.memMap f 1 g = 1
    rwa [update_of_ne hne]
  · show update s.memMap f 1 g ≠ 0
    by_cases hgf : g = f
    · rw [hgf, update_self]
      exact one_ne_zero
    · rw [update_of_ne hgf]
      exact h.reserved g hg

theorem alloc_spec (h : s.alloc = some (s', f)) :
    unpagedPages ≤ f ∧ f < unpagedPages + pagingPages ∧ s.memMap f = 0 ∧
      s' = { s with
        memMap := update s.memMap f 1
        mem := update s.mem f fun _ => 0 } := by
  unfold Memory.alloc at h
  obtain ⟨i, hi, hs⟩ := Option.map_eq_some_iff.mp h
  obtain ⟨hlt, hzero⟩ := rposition_some hi
  injection hs with hs hf
  subst hf
  exact ⟨Nat.le_add_right .., Nat.add_lt_add_left hlt _, beq_iff_eq.mp hzero,
    hs.symm⟩

theorem dealloc_eq (hf : Tracked boot f) (hpos : 0 < s.memMap f) :
    s.dealloc f = some { s with
      memMap := update s.memMap f (s.memMap f - 1) } := by
  obtain ⟨hlow, hhigh, -⟩ := hf
  unfold Memory.dealloc
  rw [if_neg (by omega), if_neg (by omega)]

theorem Inv.giveBack (h : Inv boot (f :: K) T s) :
    s.dealloc f = some { s with
      memMap := update s.memMap f (s.memMap f - 1) } ∧
    Inv boot K T { s with
      memMap := update s.memMap f (s.memMap f - 1) } := by
  have hmem : f ∈ f :: K := List.mem_cons_self
  have hf := h.ledger.loose_tracked f hmem
  have hone := h.ledger.loose_one f hmem
  refine ⟨dealloc_eq hf (by omega), h.ledger.giveBack, h.user, h.bare,
    fun p t ht => ?_, h.low, fun g hg => ?_⟩
  · refine (h.entries p t ht).congr fun g hg _ hgone => ?_
    have hne : g ≠ f := fun heq =>
      h.ledger.not_loose_of_shared (heq ▸ hg) hmem
    show update s.memMap f _ g = 1
    rwa [update_of_ne hne]
  · have hne : g ≠ f := fun heq => hg (heq ▸ hf.2.2)
    show update s.memMap f _ g ≠ 0
    rw [update_of_ne hne]
    exact h.reserved g hg

-- ======== tables and entries

/-- A fresh frame of zeros becomes the table of a block. -/
theorem Inv.addTable (h : Inv boot (t :: K) T s) {b : Block}
    (hb : T b = none) (huser : b.1 ≠ task0) (hzero : s.mem t = fun _ => 0) :
    Inv boot K (update T b (some t)) s ∧
      tableView (update T b (some t)) s.mem = tableView T s.mem := by
  have hother : ∀ {c}, c ≠ b → update T b (some t) c = T c :=
    fun hne => update_of_ne hne _ _
  refine ⟨⟨h.ledger.toSingle hb, fun c u hc => ?_, fun p hp => ?_,
    fun p u hp => ?_, h.low, h.reserved⟩, funext fun p => ?_⟩
  · by_cases hcb : c = b
    · exact hcb ▸ huser
    · exact h.user c u (by rwa [hother hcb] at hc)
  · by_cases hpb : p.1 = b
    · rw [hpb, update_self] at hp
      cases hp
    · exact h.bare p (by rwa [hother hpb] at hp)
  · by_cases hpb : p.1 = b
    · rw [hpb, update_self, Option.some_inj] at hp
      rw [← hp, hzero, h.bare p (hpb ▸ hb)]
      exact entryOk_zero _
    · exact h.entries p u (by rwa [hother hpb] at hp)
  · unfold tableView
    by_cases hpb : p.1 = b
    · rw [hpb, update_self, hb]
      show shown s.mem (s.mem t p.2) = none
      rw [hzero]
      exact shown_zero _
    · rw [hother hpb]

theorem setWord_mem (s : Memory) (t : Nat) (j : Fin 1024) (e : Word)
    (u : Nat) (k : Fin 1024) :
    (s.setWord t j e).mem u k =
      if u = t ∧ k = j then e else s.mem u k := by
  show update s.mem t (update (s.mem t) j e) u k = _
  by_cases hu : u = t
  · subst hu
    rw [update_self]
    by_cases hk : k = j
    · subst hk
      rw [update_self, if_pos ⟨rfl, rfl⟩]
    · rw [update_of_ne hk, if_neg fun hc => hk hc.2]
  · rw [update_of_ne hu, if_neg fun hc => hu hc.1]

theorem Inv.setWord_ne (h : Inv boot K T s) (hT : T p.1 = some t) (e : Word)
    (hne : q ≠ p) {u : Nat} (hu : T q.1 = some u) :
    (s.setWord t p.2 e).mem u q.2 = s.mem u q.2 := by
  rw [setWord_mem, if_neg]
  rintro ⟨rfl, hj⟩
  exact hne (Prod.ext (h.ledger.single_unique hu hT) hj)

theorem Inv.setWord_data (h : Inv boot K T s) (hT : T p.1 = some t)
    (e : Word) {r : LinPage} (hf : s.dataFrames r = some f) :
    (s.setWord t p.2 e).mem f = s.mem f :=
  update_of_ne
    (fun heq => h.ledger.shared_ne_single hT (heq ▸ hf)) _ _

theorem Inv.setWord_low (h : Inv boot K T s) (hT : T p.1 = some t)
    (e : Word) {g : Nat} (hg : g < unpagedPages) :
    (s.setWord t p.2 e).mem g = boot.mem g := by
  have hlow := (h.table_tracked hT).1
  exact (update_of_ne (by omega) _ _).trans (h.low g hg)

/-- An entry may change its flags, as long as it names the frame the page
has. -/
theorem Inv.setEntry (h : Inv boot K T s) (hT : T p.1 = some t) {e : Word}
    (he : EntryOk s.memMap (s.dataFrames p) e) :
    Inv boot K T (s.setWord t p.2 e) ∧
      tableView T (s.setWord t p.2 e).mem p = shown s.mem e ∧
      ∀ q ≠ p, tableView T (s.setWord t p.2 e).mem q
        = tableView T s.mem q := by
  have hself : (s.setWord t p.2 e).mem t p.2 = e := by
    rw [setWord_mem, if_pos ⟨rfl, rfl⟩]
  refine ⟨⟨h.ledger, h.user, h.bare, fun q u hq => ?_,
    fun g hg => h.setWord_low hT e hg, h.reserved⟩, ?_, fun q hne => ?_⟩
  · by_cases hqp : q = p
    · subst hqp
      obtain rfl := Option.some.inj (hq.symm.trans hT)
      rw [hself]
      exact he
    · rw [h.setWord_ne hT e hqp hq]
      exact h.entries q u hq
  · unfold tableView
    rw [hT]
    show shown _ ((s.setWord t p.2 e).mem t p.2) = _
    rw [hself]
    exact shown_congr he fun g hg => h.setWord_data hT e hg
  · exact h.tableView_congr (fun u hu => h.setWord_ne hT e hne hu)
      fun g hg => h.setWord_data hT e hg

/-- A frame in hand is mapped. -/
theorem Inv.putFrame (h : Inv boot (f :: K) T s) (hT : T p.1 = some t)
    (hD : s.dataFrames p = none) :
    let s' := { s.setWord t p.2 (newEntry f userRw) with
      dataFrames := update s.dataFrames p (some f) }
    Inv boot K T s' ∧ tableView T s'.mem p = some (.inr (s.mem f)) ∧
      ∀ q ≠ p, tableView T s'.mem q = tableView T s.mem q := by
  have hmem : f ∈ f :: K := List.mem_cons_self
  have hf := h.ledger.loose_tracked f hmem
  have hself : (s.setWord t p.2 (newEntry f userRw)).mem t p.2
      = newEntry f userRw := by rw [setWord_mem, if_pos ⟨rfl, rfl⟩]
  have hfmem : (s.setWord t p.2 (newEntry f userRw)).mem f = s.mem f :=
    update_of_ne
      (fun heq => h.ledger.not_loose_of_single (heq ▸ hT) hmem) _ _
  have hother : ∀ {q}, q ≠ p →
      update s.dataFrames p (some f) q = s.dataFrames q :=
    fun hne => update_of_ne hne _ _
  refine ⟨⟨h.ledger.toShared hD, h.user, fun q hq => ?_, fun q u hq => ?_,
    fun g hg => h.setWord_low hT _ hg, h.reserved⟩, ?_, fun q hne => ?_⟩
  · show update s.dataFrames p (some f) q = none
    rw [hother fun heq => by rw [heq, hT] at hq; cases hq]
    exact h.bare q hq
  · show EntryOk s.memMap (update s.dataFrames p (some f) q) _
    by_cases hqp : q = p
    · subst hqp
      obtain rfl := Option.some.inj (hq.symm.trans hT)
      rw [update_self]
      show EntryOk s.memMap (some f) ((s.setWord u q.2 _).mem u q.2)
      rw [hself]
      exact entryOk_newEntry hf.lt (h.ledger.loose_one f hmem)
    · show EntryOk s.memMap _ ((s.setWord t p.2 _).mem u q.2)
      rw [hother hqp, h.setWord_ne hT _ hqp hq]
      exact h.entries q u hq
  · unfold tableView
    rw [hT]
    show shown _ ((s.setWord t p.2 (newEntry f userRw)).mem t p.2) = _
    rw [hself, shown_newEntry hf.1 hf.lt]
    exact congrArg (fun c => some (Sum.inr c)) hfmem
  · exact h.tableView_congr (fun u hu => h.setWord_ne hT _ hne hu)
      fun g hg => h.setWord_data hT _ hg

/-- A frame that is unmapped is given back. -/
theorem Inv.clearFrame (h : Inv boot K T s) (hT : T p.1 = some t)
    (hD : s.dataFrames p = some f) :
    let s' := { s.setWord t p.2 0 with
      memMap := update s.memMap f (s.memMap f - 1)
      dataFrames := update s.dataFrames p none }
    Inv boot K T s' ∧
      ∀ q ≠ p, tableView T s'.mem q = tableView T s.mem q := by
  have hf := h.data_tracked hD
  have hother : ∀ {q}, q ≠ p →
      update s.dataFrames p none q = s.dataFrames q :=
    fun hne => update_of_ne hne _ _
  refine ⟨⟨h.ledger.unshare hD, h.user, fun q hq => ?_, fun q u hq => ?_,
    fun g hg => h.setWord_low hT _ hg, fun g hg => ?_⟩, fun q hne => ?_⟩
  · show update s.dataFrames p none q = none
    rw [hother fun heq => by rw [heq, hT] at hq; cases hq]
    exact h.bare q hq
  · show EntryOk (update s.memMap f _)
      (update s.dataFrames p none q) ((s.setWord t p.2 0).mem u q.2)
    by_cases hqp : q = p
    · subst hqp
      obtain rfl := Option.some.inj (hq.symm.trans hT)
      rw [update_self, setWord_mem, if_pos ⟨rfl, rfl⟩]
      exact entryOk_zero _
    · rw [hother hqp, h.setWord_ne hT _ hqp hq]
      refine (h.entries q u hq).congr fun g hg _ hone => ?_
      rwa [update_of_ne]
      rintro rfl
      exact hqp (h.ledger.shared_unique hone hg hD)
  · have hne : g ≠ f := fun heq => hg (heq ▸ hf.2.2)
    show update s.memMap f _ g ≠ 0
    rw [update_of_ne hne]
    exact h.reserved g hg
  · exact h.tableView_congr (fun u hu => h.setWord_ne hT _ hne hu)
      fun g hg => h.setWord_data hT _ hg

/-- A second page points to a frame that nobody may write. -/
theorem Inv.shareFrame (h : Inv boot K T s) (hD : s.dataFrames p = some f)
    (hp : ∀ u, T p.1 = some u → isWritable (s.mem u p.2) = false)
    (hT : T q.1 = some t) (hq : s.dataFrames q = none)
    (hplace : place p = place q) {e : Word} (hpresent : isPresent e = true)
    (hppn : ppn e = f) (hwrite : isWritable e = false) :
    let s' := { s.setWord t q.2 e with
      memMap := update s.memMap f (s.memMap f + 1)
      dataFrames := update s.dataFrames q (some f) }
    Inv boot K T s' ∧ tableView T s'.mem q = some (.inr (s.mem f)) ∧
      ∀ r ≠ q, tableView T s'.mem r = tableView T s.mem r := by
  have hf := h.data_tracked hD
  have hself : (s.setWord t q.2 e).mem t q.2 = e := by
    rw [setWord_mem, if_pos ⟨rfl, rfl⟩]
  have hother : ∀ {r}, r ≠ q →
      update s.dataFrames q (some f) r = s.dataFrames r :=
    fun hne => update_of_ne hne _ _
  refine ⟨⟨h.ledger.share hD hq hplace, h.user, fun r hr => ?_,
    fun r u hr => ?_, fun g hg => h.setWord_low hT _ hg, fun g hg => ?_⟩, ?_,
    fun r hne => ?_⟩
  · show update s.dataFrames q (some f) r = none
    rw [hother fun heq => by rw [heq, hT] at hr; cases hr]
    exact h.bare r hr
  · show EntryOk (update s.memMap f _)
      (update s.dataFrames q (some f) r)
      ((s.setWord t q.2 e).mem u r.2)
    by_cases hrq : r = q
    · subst hrq
      obtain rfl := Option.some.inj (hr.symm.trans hT)
      rw [update_self, hself]
      unfold EntryOk
      rw [if_pos hpresent, hppn, hwrite]
      exact .inl ⟨rfl, fun hw => by cases hw⟩
    · rw [hother hrq, h.setWord_ne hT _ hrq hr]
      refine (h.entries r u hr).congr fun g hg hw hone => ?_
      rwa [update_of_ne]
      rintro rfl
      obtain rfl := h.ledger.shared_unique hone hg hD
      rw [hp u hr] at hw
      cases hw
  · have hne : g ≠ f := fun heq => hg (heq ▸ hf.2.2)
    show update s.memMap f _ g ≠ 0
    rw [update_of_ne hne]
    exact h.reserved g hg
  · unfold tableView
    rw [hT]
    show shown _ ((s.setWord t q.2 e).mem t q.2) = _
    rw [hself]
    unfold shown
    rw [if_pos hpresent, hppn, if_neg (Nat.not_lt.mpr hf.1)]
    exact congrArg (fun c => some (Sum.inr c)) (h.setWord_data hT e hD)
  · exact h.tableView_congr (fun u hu => h.setWord_ne hT _ hne hu)
      fun g hg => h.setWord_data hT _ hg

/-- A frame with one pointer is written: only its page sees it. -/
theorem Inv.writeFrame (h : Inv boot K T s) (hD : s.dataFrames p = some f)
    (hone : s.memMap f = 1) (c : Page) :
    let s' := { s with mem := update s.mem f c }
    Inv boot K T s' ∧ tableView T s'.mem p = some (.inr c) ∧
      ∀ q ≠ p, tableView T s'.mem q = tableView T s.mem q := by
  have hnot : ∀ b, T b ≠ some f := fun b hb =>
    h.ledger.shared_ne_single hb hD
  refine ⟨h.setMem (h.data_tracked hD).1 hnot c, ?_, fun q hne => ?_⟩
  · unfold tableView
    cases hT : T p.1 with
    | none =>
      rw [h.bare p hT] at hD
      cases hD
    | some t =>
      obtain ⟨hpresent, hppn, -⟩ := (h.entries p t hT).handle hD
      have hne : t ≠ f := fun heq => hnot p.1 (heq ▸ hT)
      show shown _ (update s.mem f c t p.2) = _
      rw [update_of_ne hne]
      unfold shown
      rw [if_pos hpresent, hppn,
        if_neg (Nat.not_lt.mpr (h.data_tracked hD).1)]
      exact congrArg (fun d => some (Sum.inr d)) (update_self ..)
  · exact h.tableView_setMem hnot
      (fun hq => hne (h.ledger.shared_unique hone hq hD)) c

theorem Inv.count_le (h : Inv boot K T s) (hD : s.dataFrames p = some f) :
    s.memMap f ≤ 64 := by
  have hle := h.ledger.shared_le (fun p : LinPage => p.1.1)
    (fun q r hslot hplace => by
      obtain ⟨hoff, hentry⟩ := Prod.mk.inj hplace
      exact Prod.ext (Prod.ext hslot hoff) hentry) hD
  rwa [Fintype.card_fin] at hle

end Steps

end LinuxRs.Mm
