/-
What the calls of a memory space do: mapping a page, making it writable and
sharing it with another space.
-/
import LinuxRs.Mm.Frames

namespace LinuxRs.Mm

open Function (update update_idem update_self update_of_ne)

/-- The invariant between two calls. -/
structure Good (boot : Memory) (K : List Nat) (s : Memory) : Prop where
  inv : Inv boot K s.pageTables s
  dirs : Dirs boot s.pageTables s

/-- The users' pages show the same, but for those in `P`, and the tables of
the others are the same. -/
structure Agree (P : LinPage → Prop) (s s' : Memory) : Prop where
  view : ∀ q : LinPage, q.1.1 ≠ task0 → ¬ P q → s'.view q = s.view q
  tables : ∀ b, (∀ j, ¬ P (b, j)) → s'.pageTables b = s.pageTables b

section Calls

variable {boot s s' : Memory} {K : List Nat} {T : Block → Option Nat}
  {p q : LinPage} {f t : Nat} {b : Block}

theorem Agree.trans {P : LinPage → Prop} {s'' : Memory} (h : Agree P s s')
    (h' : Agree P s' s'') : Agree P s s'' :=
  ⟨fun q hq hP => (h'.view q hq hP).trans (h.view q hq hP),
    fun b hb => (h'.tables b hb).trans (h.tables b hb)⟩

theorem Agree.weaken {P Q : LinPage → Prop} (h : Agree P s s')
    (hPQ : ∀ q, P q → Q q) : Agree Q s s' :=
  ⟨fun q hq hQ => h.view q hq fun hP => hQ (hPQ q hP),
    fun b hb => h.tables b fun j hP => hb j (hPQ _ hP)⟩

theorem Agree.refl (P : LinPage → Prop) (s : Memory) : Agree P s s :=
  ⟨fun _ _ _ => rfl, fun _ _ => rfl⟩

theorem Inv.congr (h : Inv boot K T s) (hcount : s'.memMap = s.memMap)
    (hmem : s'.mem = s.mem) (hdata : s'.dataFrames = s.dataFrames) :
    Inv boot K T s' := by
  obtain ⟨memMap, mem, dir, tables, data⟩ := s
  obtain ⟨memMap', mem', dir', tables', data'⟩ := s'
  obtain rfl : memMap' = memMap := hcount
  obtain rfl : mem' = mem := hmem
  obtain rfl : data' = data := hdata
  exact ⟨h.ledger, h.user, h.bare, h.entries, h.low, h.reserved⟩

theorem Dirs.congr (h : Dirs boot T s) (hdir : s'.dir = s.dir) :
    Dirs boot T s' where
  kernel := fun b hb => by rw [hdir]; exact h.kernel b hb
  present := fun b t hT => by rw [hdir]; exact h.present b t hT
  absent := fun b hb hT => by rw [hdir]; exact h.absent b hb hT

theorem Dirs.addTable (h : Dirs boot T s) (hb : b.1 ≠ task0)
    (hdir : s'.dir = update s.dir b (userPageTable t)) :
    Dirs boot (update T b (some t)) s' := by
  refine ⟨fun c hc => ?_, fun c u hc => ?_, fun c hc hnone => ?_⟩ <;>
    rw [hdir]
  · have hne : c ≠ b := fun heq => hb (heq ▸ hc)
    exact (update_of_ne hne _ _).trans (h.kernel c hc)
  · by_cases hcb : c = b
    · subst hcb
      rw [update_self, Option.some_inj] at hc
      rw [update_self, hc]
    · rw [update_of_ne hcb] at hc ⊢
      exact h.present c u hc
  · have hcb : c ≠ b := by
      rintro rfl
      rw [update_self] at hnone
      cases hnone
    rw [update_of_ne hcb] at hnone ⊢
    exact h.absent c hc hnone

theorem Good.perm {K' : List Nat} (hperm : K.Perm K') (h : Good boot K s) :
    Good boot K' s :=
  ⟨⟨h.inv.ledger.perm hperm, h.inv.user, h.inv.bare, h.inv.entries,
    h.inv.low, h.inv.reserved⟩, h.dirs⟩

theorem Good.view (h : Good boot K s) (hp : p.1.1 ≠ task0) :
    s.view p = tableView s.pageTables s.mem p :=
  h.dirs.view h.inv hp

theorem Good.of (h : Good boot K s) {K' : List Nat}
    (hinv : Inv boot K' s.pageTables s') (hdir : s'.dir = s.dir)
    (htables : s'.pageTables = s.pageTables) : Good boot K' s' :=
  ⟨htables ▸ hinv, htables ▸ h.dirs.congr hdir⟩

theorem Good.agree (h : Good boot K s) {K' : List Nat}
    (h' : Good boot K' s') (htables : s'.pageTables = s.pageTables)
    {P : LinPage → Prop}
    (hview : ∀ q, ¬ P q → tableView s.pageTables s'.mem q
      = tableView s.pageTables s.mem q) : Agree P s s' := by
  refine ⟨fun q hq hP => ?_, fun b _ => congrFun htables b⟩
  rw [h.view hq, h'.view hq, htables]
  exact hview q hP

theorem mapped_eq (s : Memory) (p : LinPage) :
    s.mapped p = (s.view p).isSome := by
  unfold Memory.mapped Memory.view
  cases s.entry p with
  | none => rfl
  | some e =>
    show isPresent e = (shown s.mem e).isSome
    unfold shown
    split
    next hp => exact hp
    next hp => exact Bool.eq_false_iff.mpr hp

-- ======== frames

theorem Good.alloc (h : Good boot K s) (halloc : s.alloc = some (s', f)) :
    Good boot (f :: K) s' ∧ Tracked boot f ∧ s.memMap f = 0 ∧
      Agree (fun _ => False) s s' ∧ s' = { s with
        memMap := update s.memMap f 1
        mem := update s.mem f fun _ => 0 } := by
  obtain ⟨hlow, hhigh, hzero, rfl⟩ := alloc_spec halloc
  have hf := h.inv.free_tracked hlow hhigh hzero
  have hinv := h.inv.take hf hzero fun _ => 0
  obtain ⟨-, hT, hD⟩ := h.inv.ledger.no_handle hzero
  have hgood : Good boot (f :: K) { s with
      memMap := update s.memMap f 1
      mem := update s.mem f fun _ => 0 } := h.of hinv rfl rfl
  exact ⟨hgood, hf, hzero, h.agree hgood rfl fun q _ =>
    h.inv.tableView_setMem hT (hD q) _, rfl⟩

theorem Good.deallocAll {fs : List Nat} (h : Good boot (fs ++ K) s) :
    ∃ s', s.deallocAll fs = some s' ∧ Good boot K s' ∧
      Agree (fun _ => False) s s' ∧ s'.mem = s.mem ∧
      s'.pageTables = s.pageTables ∧ s'.dataFrames = s.dataFrames := by
  induction fs generalizing s with
  | nil => exact ⟨s, rfl, h, Agree.refl _ s, rfl, rfl, rfl⟩
  | cons f fs ih =>
    obtain ⟨hdealloc, hinv⟩ := h.inv.giveBack
    have hgood : Good boot (fs ++ K) { s with
        memMap := update s.memMap f (s.memMap f - 1) } :=
      h.of hinv rfl rfl
    obtain ⟨s', hrun, hgood', hagree, hmem, htables, hdata⟩ := ih hgood
    refine ⟨s', ?_, hgood',
      (h.agree hgood rfl fun q _ => rfl).trans hagree, hmem, htables, hdata⟩
    unfold Memory.deallocAll
    rw [List.foldlM_cons, hdealloc]
    exact hrun

-- ======== page tables

/-- A table is there, or is taken from the free frames; no page changes. -/
theorem Good.ensurePageTable (h : Good boot K s) (hb : b.1 ≠ task0) :
    ∃ s' r, s.ensurePageTable b.1 b = some (s', r) ∧ Good boot K s' ∧
      (∀ q : LinPage, q.1.1 ≠ task0 → s'.view q = s.view q) ∧
      (∀ c ≠ b, s'.pageTables c = s.pageTables c) ∧
      (∀ g, (g ∈ K ∨ ∃ c, s.pageTables c = some g) → s'.mem g = s.mem g) ∧
      (∀ c u, s.pageTables c = some u → s'.pageTables c = some u) ∧
      (r = .ok () → ∃ t, s'.pageTables b = some t) := by
  have hpresent := h.dirs.present_iff hb
  unfold Memory.ensurePageTable
  cases hT : s.pageTables b with
  | some t =>
    rw [hT] at hpresent
    rw [if_pos (show isPresent (s.dir b) = true from hpresent)]
    exact ⟨s, .ok (), rfl, h, fun _ _ => rfl, fun _ _ => rfl,
      fun _ _ => rfl, fun _ _ hu => hu, fun _ => ⟨t, hT⟩⟩
  | none =>
    rw [hT] at hpresent
    rw [if_neg (Bool.eq_false_iff.mp hpresent), if_neg (not_not.mpr rfl)]
    cases halloc : s.alloc with
    | none =>
      exact ⟨s, .error .nomem, rfl, h, fun _ _ => rfl, fun _ _ => rfl,
        fun _ _ => rfl, fun _ _ hu => hu, fun hr => by cases hr⟩
    | some r =>
      obtain ⟨s₁, t⟩ := r
      obtain ⟨h₁, ht, hzero, hagree, rfl⟩ := h.alloc halloc
      obtain ⟨hinv, hview⟩ := h₁.inv.addTable hT hb (update_self ..)
      have hnot := h.inv.ledger.no_handle hzero
      have hgood : Good boot K { s with
          memMap := update s.memMap t 1
          mem := update s.mem t fun _ => 0
          dir := update s.dir b (userPageTable t)
          pageTables := update s.pageTables b (some t) } :=
        ⟨hinv.congr rfl rfl rfl, h.dirs.addTable hb rfl⟩
      refine ⟨_, .ok (), ?_, hgood, fun q hq => ?_,
        fun c hc => update_of_ne hc _ _, fun g hg => ?_,
        fun c u hc => ?_, fun _ => ⟨t, update_self ..⟩⟩
      · show (Memory.release _ (s.pageTables b)).map _ = _
        rw [hT]
        rfl
      · rw [hgood.view hq, h.view hq]
        refine (congrFun hview q).trans ?_
        rw [← h.view hq, ← hagree.view q hq id, h₁.view hq]
      · refine update_of_ne ?_ _ _
        rintro rfl
        rcases hg with hg | ⟨c, hc⟩
        · exact hnot.1 hg
        · exact hnot.2.1 c hc
      · have hcb : c ≠ b := by
          rintro rfl
          rw [hT] at hc
          cases hc
        exact (update_of_ne hcb _ _).trans hc

-- ======== entries and handles

theorem setWord_setWord (s : Memory) (t : Nat) (j : Fin 1024) (e e' : Word) :
    ((s.setWord t j e).setWord t j e').mem = (s.setWord t j e').mem := by
  funext u k
  rw [setWord_mem, setWord_mem, setWord_mem]
  split <;> rfl

/-- The page gets the frame in hand, and gives back the one it had. -/
theorem Good.remap (h : Good boot (f :: K) s)
    (hT : s.pageTables p.1 = some t) :
    ∃ s', (s.setPte p.1.1 p (newEntry f userRw)).bind
        (·.insertFrame p f) = some s' ∧
      Good boot K s' ∧ Agree (· = p) s s' ∧
      s'.view p = some (.inr (s.mem f)) ∧ s'.dataFrames p = some f ∧
      s'.memMap f = 1 ∧ s'.entry p = some (newEntry f userRw) ∧
      ∀ g ≠ t, s'.mem g = s.mem g := by
  have hp : p.1.1 ≠ task0 := h.inv.user p.1 t hT
  have hmem : f ∈ f :: K := List.mem_cons_self
  have hone := h.inv.ledger.loose_one f hmem
  have hft : f ≠ t := fun heq =>
    h.inv.ledger.not_loose_of_single (heq ▸ hT) hmem
  have hgoal : ∀ s' : Memory, s'.dir = s.dir → s'.pageTables = s.pageTables →
      s'.mem = (s.setWord t p.2 (newEntry f userRw)).mem →
      s'.dataFrames = update s.dataFrames p (some f) →
      s'.memMap f = 1 → Inv boot K s.pageTables s' →
      tableView s.pageTables s'.mem p = some (.inr (s.mem f)) →
      (∀ q ≠ p, tableView s.pageTables s'.mem q
        = tableView s.pageTables s.mem q) →
      Good boot K s' ∧ Agree (· = p) s s' ∧
        s'.view p = some (.inr (s.mem f)) ∧ s'.dataFrames p = some f ∧
        s'.memMap f = 1 ∧ s'.entry p = some (newEntry f userRw) ∧
        ∀ g ≠ t, s'.mem g = s.mem g := by
    intro s' hdir htables hmem' hdata hcount hinv hview hrest
    have hgood := h.of hinv hdir htables
    refine ⟨hgood, h.agree hgood htables hrest, ?_, ?_, hcount, ?_,
      fun g hg => ?_⟩
    · rw [hgood.view hp, htables]
      exact hview
    · rw [hdata, update_self]
    · rw [hgood.dirs.entry hgood.inv (htables ▸ hT), hmem', setWord_mem,
        if_pos ⟨rfl, rfl⟩]
    · rw [hmem']
      exact update_of_ne hg _ _
  rw [h.dirs.setPte h.inv hT]
  cases hD : s.dataFrames p with
  | none =>
    obtain ⟨hinv, hview, hrest⟩ := h.inv.putFrame hT hD
    refine ⟨{ s.setWord t p.2 (newEntry f userRw) with
      dataFrames := update s.dataFrames p (some f) }, ?_,
      hgoal _ rfl rfl rfl rfl hone hinv hview hrest⟩
    show Memory.release _ (s.dataFrames p) = _
    rw [hD]
    rfl
  | some old =>
    have hold := h.inv.data_tracked hD
    have hne : f ≠ old := fun heq =>
      h.inv.ledger.not_loose_of_shared (heq ▸ hD) hmem
    obtain ⟨hinv₁, hrest₁⟩ := h.inv.clearFrame hT hD
    obtain ⟨hinv, hview, hrest⟩ := hinv₁.putFrame hT (update_self ..)
    have hcell := setWord_setWord s t p.2 0 (newEntry f userRw)
    have hfmem : (s.setWord t p.2 0).mem f = s.mem f :=
      update_of_ne hft _ _
    refine ⟨{ s.setWord t p.2 (newEntry f userRw) with
      memMap := update s.memMap old (s.memMap old - 1)
      dataFrames := update s.dataFrames p (some f) }, ?_,
      hgoal _ rfl rfl rfl rfl ?_ (hinv.congr rfl hcell.symm ?_) ?_
        fun q hq => ?_⟩
    · show Memory.release _ (s.dataFrames p) = _
      rw [hD]
      have hrun := dealloc_eq (s := { s.setWord t p.2 (newEntry f userRw) with
        dataFrames := update s.dataFrames p (some f) }) hold
          (h.inv.ledger.shared_pos hD)
      exact congrArg (Option.bind · some) hrun
    · exact (update_of_ne hne _ _).trans hone
    · exact (update_idem ..).symm
    · show tableView s.pageTables
        (s.setWord t p.2 (newEntry f userRw)).mem p = _
      rw [← hcell, ← hfmem]
      exact hview
    · show tableView s.pageTables
        (s.setWord t p.2 (newEntry f userRw)).mem q = _
      rw [← hcell]
      exact (hrest q hq).trans (hrest₁ q hq)

theorem Good.bare (h : Good boot K s) (hT : s.pageTables p.1 = some t)
    (hm : s.mapped p = false) : s.dataFrames p = none := by
  unfold Memory.mapped at hm
  rw [h.dirs.entry h.inv hT] at hm
  have habsent : ¬ isPresent (s.mem t p.2) = true := Bool.eq_false_iff.mp hm
  have hentry := h.inv.entries p t hT
  unfold EntryOk at hentry
  rwa [if_neg habsent] at hentry

/-- Mapping a page changes that page only; without memory nothing. -/
theorem Good.mapPage {frame : Option Nat}
    (h : Good boot (frame.toList ++ K) s) (hp : p.1.1 ≠ task0) :
    ∃ s' r, s.mapPage p.1.1 p frame = some (s', r) ∧ Good boot K s' ∧
      Agree (· = p) s s' ∧ s'.view p = if r = .ok () ∧ s.view p = none then
        some (.inr (frame.elim (fun _ => 0) s.mem)) else s.view p := by
  obtain ⟨s₁, r, hensure, h₁, hviews, htables, hmem, -, hok⟩ :=
    h.ensurePageTable hp
  have hpview := hviews p hp
  have hagree : Agree (· = p) s s₁ := ⟨fun q hq _ => hviews q hq,
    fun b hb => htables b fun heq => hb p.2 (heq ▸ rfl)⟩
  unfold Memory.mapPage
  rw [hensure]
  cases r with
  | error e =>
    obtain ⟨s', hrun, h', hagree', -⟩ := h₁.deallocAll
    refine ⟨s', .error e, ?_, h',
      hagree.trans (hagree'.weaken fun _ hf => hf.elim), ?_⟩
    · show (s₁.deallocAll _).map _ = _
      rw [hrun]
      rfl
    · rw [if_neg (fun hc => by cases hc.1), hagree'.view p hp id, hpview]
  | ok u =>
    obtain ⟨t, hT⟩ := hok rfl
    dsimp only
    rw [Memory.pte_own]
    split
    next hm =>
      rw [show (s₁.entry p).any isPresent = s₁.mapped p from rfl, mapped_eq,
        hpview] at hm
      have hsome : ∀ r : Except Errno Unit,
          ¬ (r = .ok () ∧ s.view p = none) := fun r hc => by
        rw [hc.2] at hm
        cases hm
      cases frame with
      | none =>
        refine ⟨s₁, .ok (), rfl, h₁, hagree, ?_⟩
        rw [if_neg (hsome _), hpview]
      | some f =>
        obtain ⟨s', hrun, h', hagree', -⟩ := h₁.deallocAll
        refine ⟨s', .error .exist, ?_, h',
          hagree.trans (hagree'.weaken fun _ hf => hf.elim), ?_⟩
        · unfold Memory.deallocAll at hrun
          rw [Option.toList_some, List.foldlM_cons] at hrun
          obtain ⟨s₂, hd, hrest⟩ := Option.bind_eq_some_iff.mp hrun
          obtain rfl := Option.some.inj hrest
          show (s₁.dealloc f).map _ = _
          rw [hd]
          rfl
        · rw [if_neg (hsome _), hagree'.view p hp id, hpview]
    next hm =>
      have hm' : s₁.mapped p = false := Bool.eq_false_iff.mpr hm
      have hnone : s.view p = none := by
        rw [mapped_eq, hpview] at hm'
        exact Option.not_isSome_iff_eq_none.mp (Bool.eq_false_iff.mp hm')
      cases frame with
      | some f =>
        obtain ⟨s', hrun, h', hagree', hview, -⟩ := Good.remap h₁ hT
        refine ⟨s', .ok (), ?_, h', hagree.trans hagree', ?_⟩
        · show (Option.bind _ _).map _ = _
          rw [hrun]
          rfl
        · rw [if_pos ⟨rfl, hnone⟩, hview, hmem f (.inl List.mem_cons_self)]
          rfl
      | none =>
        cases halloc : s₁.alloc with
        | none =>
          refine ⟨s₁, .error .nomem, rfl, h₁, hagree, ?_⟩
          rw [if_neg (fun hc => by cases hc.1), hpview]
        | some r =>
          obtain ⟨s₂, f⟩ := r
          obtain ⟨h₂, -, -, hagree₂, rfl⟩ := h₁.alloc halloc
          obtain ⟨s', hrun, h', hagree', hview, -⟩ := h₂.remap hT
          refine ⟨s', .ok (), ?_, h', (hagree.trans (hagree₂.weaken
            fun _ hf => hf.elim)).trans hagree', ?_⟩
          · show (Option.bind _ _).map _ = _
            rw [hrun]
            rfl
          · rw [if_pos ⟨rfl, hnone⟩, hview]
            exact congrArg (fun c => some (Sum.inr c))
              (update_self ..)

end Calls

end LinuxRs.Mm
