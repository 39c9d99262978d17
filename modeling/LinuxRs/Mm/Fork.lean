/-
The end of a memory space, and `cow_copy`.

# The loop of `cow_copy`

While a table is copied it is not in the page directory yet, but its frame
and the frames it maps have their handles: the invariant counts it as a table
in use. Entries behind the loop show what the parent's show; those ahead of
it are zero.
-/
import LinuxRs.Mm.Sharing

namespace LinuxRs.Mm

open Function (update update_self update_of_ne)

open Lib (Ledger)
open Memory (slotBlocks slotPages)

section Drop

variable {boot s s' : Memory} {K : List Nat} {T : Block → Option Nat}

/-- The handles of a finite set are dropped one by one. -/
theorem deallocAll_run {X : Type} [DecidableEq X]
    {P : (Nat → Nat) → (X → Option Nat) → Prop}
    (hstep : ∀ c h x f, P c h → h x = some f → Tracked boot f ∧ 0 < c f ∧
      P (update c f (c f - 1)) (update h x none))
    {xs : List X} (hnodup : xs.Nodup) {s : Memory} {h : X → Option Nat}
    (hP : P s.memMap h) :
    ∃ c, s.deallocAll (xs.filterMap h) = some { s with memMap := c } ∧
      (∀ h', (∀ x ∈ xs, h' x = none) → (∀ x ∉ xs, h' x = h x) → P c h') ∧
      (∀ f, c f ≤ s.memMap f) ∧
      ∀ f, ¬ Tracked boot f → c f = s.memMap f := by
  induction xs generalizing s h with
  | nil =>
    refine ⟨s.memMap, rfl, fun h' _ hsame => ?_, fun _ => Nat.le_refl _,
      fun _ _ => rfl⟩
    obtain rfl : h' = h := funext fun x => hsame x List.not_mem_nil
    exact hP
  | cons x xs ih =>
    obtain ⟨hx, hnodup⟩ := List.nodup_cons.mp hnodup
    cases hxf : h x with
    | none =>
      obtain ⟨c, hrun, hc, hle, hsame⟩ := ih hnodup hP
      refine ⟨c, ?_, fun h' hnone hrest => ?_, hle, hsame⟩
      · rw [List.filterMap_cons_none hxf]
        exact hrun
      · refine hc h' (fun y hy => hnone y (.tail _ hy)) fun y hy => ?_
        by_cases hyx : y = x
        · rw [hyx, hxf]
          exact hnone x List.mem_cons_self
        · exact hrest y fun hmem => (List.mem_cons.mp hmem).elim hyx hy
    | some f =>
      obtain ⟨hf, hpos, hP'⟩ := hstep _ h x f hP hxf
      obtain ⟨c, hrun, hc, hle, hsame⟩ := ih hnodup (s := { s with
        memMap := update s.memMap f (s.memMap f - 1) }) hP'
      have hdec : ∀ g,
          update s.memMap f (s.memMap f - 1) g ≤ s.memMap g := by
        intro g
        by_cases hg : g = f
        · rw [hg, update_self]
          exact Nat.sub_le ..
        · rw [update_of_ne hg]
      have hupdate : ∀ {y}, y ≠ x → update h x none y = h y :=
        fun hne => update_of_ne hne _ _
      refine ⟨c, ?_, fun h' hnone hrest => ?_,
        fun g => Nat.le_trans (hle g) (hdec g), fun g hg => ?_⟩
      · have hsame' : xs.filterMap (update h x none)
            = xs.filterMap h := List.filterMap_congr fun y hy =>
          hupdate fun heq => hx (heq ▸ hy)
        rw [List.filterMap_cons_some hxf]
        unfold Memory.deallocAll at hrun ⊢
        rw [List.foldlM_cons, dealloc_eq hf hpos, ← hsame']
        exact hrun
      · refine hc h' (fun y hy => hnone y (.tail _ hy)) fun y hy => ?_
        by_cases hyx : y = x
        · rw [hyx, update_self]
          exact hnone x List.mem_cons_self
        · rw [hupdate hyx]
          exact hrest y fun hmem => (List.mem_cons.mp hmem).elim hyx hy
      · have hne : g ≠ f := fun heq => hg (heq ▸ hf)
        rw [hsame g hg]
        exact update_of_ne hne _ _

theorem mem_slotBlocks {slot : Slot} {b : Block} :
    b ∈ slotBlocks slot ↔ b.1 = slot := by
  unfold slotBlocks
  rw [List.mem_map]
  constructor
  · rintro ⟨i, -, rfl⟩
    rfl
  · rintro rfl
    exact ⟨b.2, List.mem_finRange _, rfl⟩

theorem mem_slotPages {slot : Slot} {p : LinPage} :
    p ∈ slotPages slot ↔ p.1.1 = slot := by
  unfold slotPages
  rw [List.mem_flatMap]
  constructor
  · rintro ⟨b, hb, hp⟩
    obtain ⟨j, -, rfl⟩ := List.mem_map.mp hp
    exact mem_slotBlocks.mp hb
  · intro hp
    exact ⟨p.1, mem_slotBlocks.mpr hp,
      List.mem_map.mpr ⟨p.2, List.mem_finRange _, rfl⟩⟩

theorem nodup_slotBlocks (slot : Slot) : (slotBlocks slot).Nodup :=
  (List.nodup_finRange 16).map (Prod.mk_right_injective slot)

theorem nodup_slotPages (slot : Slot) : (slotPages slot).Nodup := by
  unfold slotPages
  refine List.nodup_flatMap.mpr ⟨fun b _ =>
    (List.nodup_finRange 1024).map (Prod.mk_right_injective b),
    (nodup_slotBlocks slot).imp fun hne => ?_⟩
  intro p hp hp'
  obtain ⟨j, -, rfl⟩ := List.mem_map.mp hp
  obtain ⟨j', -, heq⟩ := List.mem_map.mp hp'
  injection heq with hb _
  exact hne hb.symm

/-- A slot's spaces without their handles. -/
def Memory.cleared (s : Memory) (slot : Slot) (c : Nat → Nat) : Memory :=
  { s with
    memMap := c
    dir := fun b =>
      if b.1 = slot ∧ (s.pageTables b).isSome then 0 else s.dir b
    pageTables := fun b => if b.1 = slot then none else s.pageTables b
    dataFrames := fun p => if p.1.1 = slot then none else s.dataFrames p }

/-- Every frame of a space is given back as often as the space points to
it. -/
theorem Inv.dropHandles (h : Inv boot K s.pageTables s) (slot : Slot) :
    ∃ c, (s.cleared slot s.memMap).deallocAll
        ((slotBlocks slot).filterMap s.pageTables ++
          (slotPages slot).filterMap s.dataFrames) = some (s.cleared slot c) ∧
      Ledger place (Tracked boot) c K (s.cleared slot c).pageTables
        (s.cleared slot c).dataFrames ∧
      (∀ f, c f ≤ s.memMap f) ∧
      ∀ f, ¬ Tracked boot f → c f = s.memMap f := by
  obtain ⟨c, hrun, hled, hle, hsame⟩ := deallocAll_run
    (P := fun c T => Ledger place (Tracked boot) c K T s.dataFrames)
    (fun c T b f hled hb => by
      have hone := hled.single_one b f hb
      exact ⟨hled.single_tracked b f hb, by omega,
        (hled.fromSingle hb).giveBack⟩)
    (nodup_slotBlocks slot) (s := s.cleared slot s.memMap) h.ledger
  have hled₁ := hled (s.cleared slot c).pageTables
    (fun b hb => if_pos (mem_slotBlocks.mp hb))
    fun b hb => if_neg fun heq => hb (mem_slotBlocks.mpr heq)
  obtain ⟨c', hrun', hled', hle', hsame'⟩ := deallocAll_run
    (P := fun c D => Ledger place (Tracked boot) c K
      (s.cleared slot s.memMap).pageTables D)
    (fun c D p f hled hp => ⟨hled.shared_tracked p f hp, hled.shared_pos hp,
      hled.unshare hp⟩)
    (nodup_slotPages slot) (s := s.cleared slot c) hled₁
  refine ⟨c', ?_, hled' (s.cleared slot c').dataFrames
    (fun p hp => if_pos (mem_slotPages.mp hp))
    (fun p hp => if_neg fun heq => hp (mem_slotPages.mpr heq)),
    fun f => Nat.le_trans (hle' f) (hle f),
    fun f hf => (hsame' f hf).trans (hsame f hf)⟩
  have hstate (c₁ c₂ : Nat → Nat) :
      { s.cleared slot c₁ with memMap := c₂ } = s.cleared slot c₂ := rfl
  rw [hstate] at hrun hrun'
  unfold Memory.deallocAll at hrun hrun' ⊢
  rw [List.foldlM_append, hrun, Option.bind_eq_bind, Option.bind_some, hrun']

/-- A dropped space leaves the other tasks their pages. -/
theorem Good.dropSpace {slot : Slot} (h : Good boot K s)
    (hslot : slot ≠ task0) :
    ∃ s', s.dropSpace slot = some s' ∧ Good boot K s' ∧
      Agree (·.1.1 = slot) s s' ∧
      (∀ q : LinPage, q.1.1 = slot → s'.view q = none) ∧
      ∀ i, s'.pageTables (slot, i) = none := by
  obtain ⟨c, hrun, hled, hle, hsame⟩ := h.inv.dropHandles slot
  have hinv : Inv boot K (s.cleared slot c).pageTables
      (s.cleared slot c) := by
    refine ⟨hled, fun b t hb => ?_, fun p hp => ?_, fun p t hp => ?_,
      h.inv.low, fun f hf => ?_⟩
    · by_cases hbs : b.1 = slot
      · exact hbs ▸ hslot
      · exact h.inv.user b t ((if_neg hbs).symm.trans hb)
    · by_cases hps : p.1.1 = slot
      · exact if_pos hps
      · exact (if_neg hps).trans (h.inv.bare p ((if_neg hps).symm.trans hp))
    · have hps : p.1.1 ≠ slot := fun heq => by
        have hnone : (s.cleared slot c).pageTables p.1 = none := if_pos heq
        rw [hnone] at hp
        cases hp
      have hD : (s.cleared slot c).dataFrames p = s.dataFrames p := if_neg hps
      rw [hD]
      refine (h.inv.entries p t ((if_neg hps).symm.trans hp)).congr
        fun f hf _ hone => ?_
      have hpos := hled.shared_pos (hD.trans hf)
      have hdec := hle f
      show c f = 1
      omega
    · have hno : ¬ Tracked boot f := fun ht => hf ht.2.2
      exact (hsame f hno).trans_ne (h.inv.reserved f hf)
  have hdirs : Dirs boot (s.cleared slot c).pageTables
      (s.cleared slot c) := by
    refine ⟨fun b hb => ?_, fun b t hb => ?_, fun b hb hnone => ?_⟩
    · exact (if_neg fun hc => hslot (hc.1.symm.trans hb)).trans
        (h.dirs.kernel b hb)
    · have hbs : b.1 ≠ slot := fun heq => by
        have hnone : (s.cleared slot c).pageTables b = none := if_pos heq
        rw [hnone] at hb
        cases hb
      exact (if_neg fun hc => hbs hc.1).trans
        (h.dirs.present b t ((if_neg hbs).symm.trans hb))
    · show isPresent (if _ then 0 else s.dir b) = false
      split
      next => rfl
      next hc =>
        refine h.dirs.absent b hb ?_
        by_cases hbs : b.1 = slot
        · exact Option.not_isSome_iff_eq_none.mp fun hsome => hc ⟨hbs, hsome⟩
        · exact (if_neg hbs).symm.trans hnone
  have hgood : Good boot K (s.cleared slot c) := ⟨hinv, hdirs⟩
  refine ⟨_, ?_, hgood, ⟨fun q hq hne => ?_, fun b hb => if_neg (hb 0)⟩,
    fun q hq => ?_, fun _ => if_pos rfl⟩
  · unfold Memory.dropSpace
    dsimp only
    rw [if_neg fun hc => hslot hc.2]
    exact hrun
  · rw [hgood.view hq, h.view hq]
    exact congrArg (fun o => Option.bind o _) (if_neg hne)
  · rw [hgood.view (hq ▸ hslot)]
    exact congrArg (fun o => Option.bind o _) (if_pos hq)

end Drop

section Copy

variable {boot s s₀ s' : Memory} {K : List Nat} {T : Block → Option Nat}
  {parent child : Block} {pt ct m n : Nat}

/-- A table of the kernel whose first entries map low memory. -/
def LowTable (boot : Memory) (pt m : Nat) : Prop :=
  pt < unpagedPages ∧
    ∀ j : Fin 1024, j.val < m → ppn (boot.mem pt j) < unpagedPages

/-- Where the loop of `cow_copy` over a table's entries is. -/
structure Copied (boot : Memory) (K : List Nat) (T : Block → Option Nat)
    (s₀ : Memory) (child : Block) (pt ct n : Nat) (s : Memory) : Prop where
  inv : Inv boot K T s
  dir : s.dir = s₀.dir
  tables : s.pageTables = s₀.pageTables
  rest : ∀ q : LinPage, q.1 ≠ child →
    tableView T s.mem q = tableView T s₀.mem q
  done : ∀ j : Fin 1024, j.val < n →
    shown s.mem (s.mem ct j) = shown s₀.mem (s₀.mem pt j)
  todo : ∀ j : Fin 1024, n ≤ j.val → s.mem ct j = 0#32

theorem tableView_some {mem : Nat → Page} {p : LinPage} {t : Nat}
    (hT : T p.1 = some t) : tableView T mem p = shown mem (mem t p.2) := by
  unfold tableView
  rw [hT]
  rfl

theorem Copied.source (h : Copied boot K T s₀ child pt ct n s)
    (h₀ : Inv boot K T s₀) (hne : parent ≠ child)
    (hpt : T parent = some pt ∨ LowTable boot pt m) {j : Fin 1024}
    (hj : j.val < m) :
    shown s.mem (s.mem pt j) = shown s₀.mem (s₀.mem pt j) := by
  rcases hpt with hpt | ⟨hlow, hentries⟩
  · have hrest := h.rest (parent, j) hne
    rwa [tableView_some (p := (parent, j)) hpt,
      tableView_some (p := (parent, j)) hpt] at hrest
  · rw [h.inv.low pt hlow, h₀.low pt hlow]
    unfold shown
    rw [if_pos (hentries j hj), if_pos (hentries j hj)]

theorem setWord_comm (s : Memory) {t u : Nat} (hne : t ≠ u)
    (i j : Fin 1024) (v w : Word) :
    (s.setWord t i v).setWord u j w = (s.setWord u j w).setWord t i v := by
  have hmem : ((s.setWord t i v).setWord u j w).mem
      = ((s.setWord u j w).setWord t i v).mem := by
    funext x k
    rw [setWord_mem, setWord_mem, setWord_mem, setWord_mem]
    split
    next hu =>
      rw [if_neg fun ht => hne (ht.1.symm.trans hu.1)]
    next => rfl
  exact congrArg (fun mem => { s with mem := mem }) hmem

theorem Copied.free (h : Copied boot K T s₀ child pt ct n s)
    (hct : T child = some ct) {j : Fin 1024} (hj : n ≤ j.val) :
    s.dataFrames (child, j) = none := by
  have hentry := h.inv.entries (child, j) ct hct
  rw [h.todo j hj] at hentry
  unfold EntryOk at hentry
  rwa [if_neg (by decide)] at hentry

/-- What one entry of the loop adds to what is copied. -/
theorem Copied.next (h : Copied boot K T s₀ child pt ct n s)
    (hct : T child = some ct) (hn : n < 1024) (hinv : Inv boot K T s')
    (hdir : s'.dir = s.dir) (htables : s'.pageTables = s.pageTables)
    (hview : ∀ q : LinPage, q ≠ (child, ⟨n, hn⟩) →
      tableView T s'.mem q = tableView T s.mem q)
    (hnew : shown s'.mem (s'.mem ct ⟨n, hn⟩)
      = shown s₀.mem (s₀.mem pt ⟨n, hn⟩))
    (htodo : ∀ j : Fin 1024, n < j.val → s'.mem ct j = s.mem ct j) :
    Copied boot K T s₀ child pt ct (n + 1) s' where
  inv := hinv
  dir := hdir.trans h.dir
  tables := htables.trans h.tables
  rest := fun q hq => (hview q fun heq => hq (heq ▸ rfl)).trans (h.rest q hq)
  done := by
    intro j hj
    by_cases hjn : j.val = n
    · obtain rfl : j = ⟨n, hn⟩ := Fin.ext hjn
      exact hnew
    · have hsame := hview (child, j) fun heq =>
        hjn (congrArg (fun q : LinPage => q.2.val) heq)
      rw [tableView_some (p := (child, j)) hct,
        tableView_some (p := (child, j)) hct] at hsame
      exact hsame.trans (h.done j (by omega))
  todo := fun j hj => (htodo j hj).trans (h.todo j (by omega))

/-- One entry of the loop: a hole, a page of low memory, or a page that both
share from now on. -/
theorem Copied.step (h : Copied boot K T s₀ child pt ct n s)
    (h₀ : Inv boot K T s₀) (hne : parent ≠ child)
    (hoff : parent.2 = child.2) (hct : T child = some ct)
    (hpt : T parent = some pt ∨ LowTable boot pt m) (hm : n < m)
    (hn : n < 1024) :
    ∃ s', s.copyEntry parent child pt ct ⟨n, hn⟩ = some s' ∧
      Copied boot K T s₀ child pt ct (n + 1) s' := by
  have hsource := h.source h₀ hne hpt (j := ⟨n, hn⟩) hm
  have hfree := h.free hct (j := ⟨n, hn⟩) (Nat.le_refl n)
  have hpc : pt ≠ ct := by
    rintro rfl
    rcases hpt with hpt | ⟨hlow, -⟩
    · exact hne (h.inv.ledger.single_unique hpt hct)
    · exact absurd (h.inv.table_tracked hct).1 (Nat.not_le.mpr hlow)
  unfold Memory.copyEntry
  dsimp only
  generalize he : s.mem pt ⟨n, hn⟩ = e at *
  split
  next habsent =>
    refine ⟨s, rfl, h.next hct hn h.inv rfl rfl (fun _ _ => rfl) ?_
      fun _ _ => rfl⟩
    rw [← hsource, h.todo ⟨n, hn⟩ (Nat.le_refl n), shown_zero]
    exact (if_neg (Bool.eq_false_iff.mp habsent)).symm
  next hp =>
    have hpresent := Bool.of_not_eq_false hp
    have hcell : ∀ {w : Memory}, ∀ j : Fin 1024, n < j.val →
        (w.setWord ct ⟨n, hn⟩ (withoutWritable e)).mem ct j = w.mem ct j := by
      intro w j hj
      rw [setWord_mem, if_neg]
      rintro ⟨-, rfl⟩
      exact Nat.lt_irrefl _ hj
    split
    next hlow =>
      have hfit : EntryOk s.memMap (s.dataFrames (child, ⟨n, hn⟩))
          (withoutWritable e) := by
        unfold EntryOk
        rw [isPresent_withoutWritable, if_pos hpresent, ppn_withoutWritable,
          isWritable_withoutWritable]
        exact .inr ⟨hfree, hlow, rfl⟩
      obtain ⟨hinv, hself, hrest⟩ :=
        h.inv.setEntry (p := (child, ⟨n, hn⟩)) hct hfit
      refine ⟨_, rfl, h.next hct hn hinv rfl rfl hrest ?_ hcell⟩
      rw [tableView_some (p := (child, ⟨n, hn⟩)) hct] at hself
      rw [hself, ← hsource]
      exact shown_replace (isPresent_withoutWritable e)
        (ppn_withoutWritable e)
    next hhigh =>
      rcases hpt with hpt | ⟨hlow, hentries⟩
      case inr =>
        have hboot := hentries ⟨n, hn⟩ hm
        rw [← h.inv.low pt hlow, he] at hboot
        exact absurd hboot hhigh
      have hentry := h.inv.entries (parent, ⟨n, hn⟩) pt hpt
      have he' : s.mem pt (parent, (⟨n, hn⟩ : Fin 1024)).2 = e := he
      rw [he'] at hentry
      have hD : s.dataFrames (parent, ⟨n, hn⟩) = some (ppn e) := by
        unfold EntryOk at hentry
        rw [if_pos hpresent] at hentry
        rcases hentry with ⟨hD, -⟩ | ⟨-, hlow, -⟩
        · exact hD
        · exact absurd hlow hhigh
      have hf := h.inv.data_tracked hD
      have hfhigh := hf.2.1
      have hle := h.inv.count_le hD
      have hpos := h.inv.ledger.shared_pos hD
      obtain ⟨hinv₁, hself₁, hrest₁⟩ :=
        h.inv.setEntry (p := (parent, ⟨n, hn⟩)) hpt
          (hentry.replace (isPresent_withoutWritable e)
            (ppn_withoutWritable e) fun hw => by
              rw [isWritable_withoutWritable] at hw
              cases hw)
      obtain ⟨hinv₂, hself₂, hrest₂⟩ := hinv₁.shareFrame hD
        (fun u hu => by
          obtain rfl := Option.some.inj (hu.symm.trans hpt)
          rw [setWord_mem, if_pos ⟨rfl, rfl⟩, isWritable_withoutWritable])
        (q := (child, ⟨n, hn⟩)) hct hfree
        (Prod.ext hoff rfl) (e := withoutWritable e)
        ((isPresent_withoutWritable e).trans hpresent)
        (ppn_withoutWritable e) (isWritable_withoutWritable e)
      refine ⟨_, ?_, h.next hct hn hinv₂ rfl rfl (fun q hq => ?_) ?_
        fun j hj => ?_⟩
      · have hcomm := setWord_comm s hpc ⟨n, hn⟩ ⟨n, hn⟩
          (withoutWritable e) (withoutWritable e)
        have hshare : ((s.setWord ct ⟨n, hn⟩ (withoutWritable e)).setWord pt
            ⟨n, hn⟩ (withoutWritable e)).share (ppn e) = some {
              (s.setWord ct ⟨n, hn⟩ (withoutWritable e)).setWord pt ⟨n, hn⟩
                (withoutWritable e) with
              memMap := update s.memMap (ppn e)
                (s.memMap (ppn e) + 1) } := by
          refine if_neg ?_
          show ¬ (_ ∨ _ ∨ s.memMap (ppn e) = 0 ∨ s.memMap (ppn e) = 255)
          omega
        rw [if_neg (by
          show ¬ s.dataFrames (parent, ⟨n, hn⟩) = none
          rw [hD]
          exact Option.some_ne_none _), hshare, Option.bind_some, ← hcomm]
        show Memory.release _ (s.dataFrames (child, ⟨n, hn⟩)) = _
        rw [hfree]
        rfl
      · refine (hrest₂ q hq).trans ?_
        by_cases hqp : q = (parent, ⟨n, hn⟩)
        · rw [hqp, hself₁, tableView_some (p := (parent, ⟨n, hn⟩)) hpt]
          show _ = shown s.mem (s.mem pt ⟨n, hn⟩)
          rw [he]
          exact shown_replace (isPresent_withoutWritable e)
            (ppn_withoutWritable e)
        · exact hrest₁ q hqp
      · rw [tableView_some (p := (child, ⟨n, hn⟩)) hct] at hself₂
        refine hself₂.trans ?_
        rw [← hsource, h.inv.setWord_data (p := (parent, ⟨n, hn⟩)) hpt _ hD]
        unfold shown
        rw [if_pos hpresent, if_neg hhigh]
      · refine (hcell (w := s.setWord pt ⟨n, hn⟩ (withoutWritable e)) j
          hj).trans ?_
        exact congrFun (update_of_ne (Ne.symm hpc) _ _) j

/-- The loop copies every entry. By induction on the entries left. -/
theorem Copied.run (h : Copied boot K T s₀ child pt ct 0 s)
    (h₀ : Inv boot K T s₀) (hne : parent ≠ child)
    (hoff : parent.2 = child.2) (hct : T child = some ct)
    (hpt : T parent = some pt ∨ LowTable boot pt m)
    (hdir : ppn (s₀.dir parent) = pt) (hm : m ≤ 1024) (n : Nat)
    (hn : n ≤ m) :
    ∃ s', ((List.finRange 1024).take n).foldlM (fun (s : Memory) j =>
        s.copyEntry parent child (ppn (s.dir parent)) ct j) s = some s' ∧
      Copied boot K T s₀ child pt ct n s' := by
  induction n with
  | zero => exact ⟨s, rfl, h⟩
  | succ n ih =>
    obtain ⟨s₁, hrun, h₁⟩ := ih (by omega)
    obtain ⟨s₂, hstep, h₂⟩ :=
      h₁.step h₀ hne hoff hct hpt (by omega) (by omega)
    refine ⟨s₂, ?_, h₂⟩
    have hlen : n < (List.finRange 1024).length := by
      rw [List.length_finRange]
      omega
    rw [List.take_succ_eq_append_getElem hlen, List.foldlM_append, hrun,
      List.getElem_finRange]
    show (s₁.copyEntry parent child (ppn (s₁.dir parent)) ct _).bind some = _
    rw [h₁.dir, hdir]
    exact congrArg (Option.bind · some) hstep

end Copy

section Blocks

variable {boot s s' : Memory} {K : List Nat} {parent child : Block}

/-- The first entries of the kernel's table map low memory. -/
def KernelTable (boot : Memory) (b : Block) : Prop :=
  isPresent (boot.dir b) = true →
    LowTable boot (ppn (boot.dir b)) Memory.task0PageCount

/-- The pages of a block that `cow_copy` copies. -/
def Copyable (p : LinPage) : Prop := p.2.val < Memory.entryCount p.1.1

instance (p : LinPage) : Decidable (Copyable p) :=
  inferInstanceAs (Decidable (_ < _))

/-- The pages of the kernel that are copied do not change. -/
theorem Good.kernelView (h : Good boot K s) {K' : List Nat}
    (h' : Good boot K' s') {p : LinPage} (hp : p.1.1 = task0)
    (hk : KernelTable boot p.1) (hcopy : Copyable p) :
    s'.view p = s.view p := by
  have hview : ∀ {L : List Nat} {m : Memory}, Good boot L m →
      m.view p = if isPresent (boot.dir p.1) then
        shown boot.mem (boot.mem (ppn (boot.dir p.1)) p.2) else none := by
    intro L m hm
    unfold Memory.view Memory.entry
    rw [hm.dirs.kernel p.1 hp]
    split
    next hpresent =>
      obtain ⟨hlow, hentries⟩ := hk hpresent
      have hentry :
          ppn (boot.mem (ppn (boot.dir p.1)) p.2) < unpagedPages := by
        refine hentries p.2 ?_
        unfold Copyable Memory.entryCount at hcopy
        rwa [if_pos hp] at hcopy
      show shown m.mem (m.mem _ p.2) = _
      rw [hm.inv.low _ hlow]
      unfold shown
      rw [if_pos hentry, if_pos hentry]
    next => rfl
  rw [hview h, hview h']

theorem entryCount_le (slot : Slot) : Memory.entryCount slot ≤ 1024 := by
  unfold Memory.entryCount
  split <;> decide

/-- A copied block shows the child what the parent sees, read only for both,
and no other page changes. -/
theorem Good.copyBlock (h : Good boot K s) (hchild : child.1 ≠ task0)
    (hfree : s.pageTables child = none) (hne : parent.1 ≠ child.1)
    (hoff : parent.2 = child.2)
    (hkernel : parent.1 = task0 → KernelTable boot parent) :
    ∃ s' r, s.copyBlock parent child = some (s', r) ∧ Good boot K s' ∧
      Agree (·.1 = child) s s' ∧
      (r = .ok () → ∀ j, s'.view (child, j) =
        if Copyable (parent, j) then s.view (parent, j) else none) ∧
      (r ≠ .ok () → s.alloc = none) := by
  have hbare : ∀ j, s.view (child, j) = none := fun j => by
    rw [h.view hchild]
    exact congrArg (fun o => Option.bind o _) hfree
  unfold Memory.copyBlock
  split
  next habsent =>
    refine ⟨s, .ok (), rfl, h, Agree.refl _ s, fun _ j => ?_,
      fun hr => absurd rfl hr⟩
    have hnone : s.view (parent, j) = none := by
      unfold Memory.view Memory.entry
      rw [if_neg (Bool.eq_false_iff.mp habsent)]
      rfl
    rw [hnone, hbare, ite_self]
  next hpresent =>
    have hpresent := Bool.of_not_eq_false hpresent
    rw [if_neg (Bool.eq_false_iff.mp (h.dirs.absent child hchild hfree))]
    cases halloc : s.alloc with
    | none =>
      exact ⟨s, .error .nomem, rfl, h, Agree.refl _ s,
        fun hr => (by cases hr), fun _ => rfl⟩
    | some r =>
      obtain ⟨s₁, ct⟩ := r
      obtain ⟨h₁, hf, hzero, hagree₁, rfl⟩ := h.alloc halloc
      have hne' : parent ≠ child := fun heq => hne (congrArg Prod.fst heq)
      obtain ⟨hinv, hview⟩ :=
        h₁.inv.addTable hfree hchild (update_self ..)
      -- the parent's table is one in use, or the kernel's
      have hpt : update s.pageTables child (some ct) parent
            = some (ppn (s.dir parent)) ∨
          LowTable boot (ppn (s.dir parent))
            (Memory.entryCount parent.1) := by
        by_cases hp : parent.1 = task0
        · refine .inr ?_
          rw [h.dirs.kernel parent hp] at hpresent ⊢
          unfold Memory.entryCount
          rw [if_pos hp]
          exact hkernel hp hpresent
        · refine .inl ?_
          rw [update_of_ne hne']
          rw [h.dirs.present_iff hp] at hpresent
          obtain ⟨t, hT⟩ := Option.isSome_iff_exists.mp hpresent
          rw [hT, h.dirs.present parent t hT, userPageTable,
            ppn_userRw (h.inv.table_tracked hT).lt]
      have hcleared : ∀ j, update s.mem ct (fun _ => 0#32) ct j
          = 0#32 := fun j => by rw [update_self]
      have hct :
          update s.pageTables child (some ct) child = some ct :=
        update_self ..
      have hstart : Copied boot K
          (update s.pageTables child (some ct)) { s with
            memMap := update s.memMap ct 1
            mem := update s.mem ct fun _ => 0 } child
          (ppn (s.dir parent)) ct 0 { s with
            memMap := update s.memMap ct 1
            mem := update s.mem ct fun _ => 0 } :=
        ⟨hinv, rfl, rfl, fun _ _ => rfl,
          fun j hj => absurd hj (Nat.not_lt_zero _), fun j _ => hcleared j⟩
      obtain ⟨s₂, hrun, hcopied⟩ := hstart.run hinv hne' hoff hct hpt rfl
        (entryCount_le parent.1) _ (Nat.le_refl _)
      have hgood : Good boot K { s₂ with
          dir := update s₂.dir child (userPageTable ct)
          pageTables := update s₂.pageTables child (some ct) } := by
        refine ⟨?_, ?_⟩
        · show Inv boot K (update s₂.pageTables child (some ct)) _
          rw [hcopied.tables]
          exact hcopied.inv.congr rfl rfl rfl
        · show Dirs boot (update s₂.pageTables child (some ct)) _
          rw [hcopied.tables]
          refine h.dirs.addTable hchild ?_
          exact congrArg (update · child _) hcopied.dir
      have hviews : ∀ q : LinPage, q.1.1 ≠ task0 → Memory.view { s₂ with
          dir := update s₂.dir child (userPageTable ct)
          pageTables := update s₂.pageTables child (some ct) } q
          = tableView (update s.pageTables child (some ct))
            s₂.mem q := by
        intro q hq
        rw [hgood.view hq]
        show tableView (update s₂.pageTables child (some ct)) _ q = _
        rw [hcopied.tables]
      refine ⟨_, .ok (), ?_, hgood, ⟨fun q hq hqc => ?_, fun b hb => ?_⟩,
        fun _ j => ?_, fun hr => absurd rfl hr⟩
      · dsimp only
        rw [hrun, Option.bind_some]
        unfold Memory.insertTable
        rw [hcopied.tables]
        show (Memory.release _ (s.pageTables child)).map _ = _
        rw [hfree]
        rfl
      · rw [hviews q hq, hcopied.rest q hqc]
        refine (congrFun hview q).trans ?_
        rw [← hagree₁.view q hq id, h₁.view hq]
      · show update s₂.pageTables child (some ct) b = _
        rw [hcopied.tables]
        exact update_of_ne (hb 0) _ _
      · rw [hviews (child, j) hchild, tableView_some (p := (child, j)) hct]
        have hcount : Copyable (parent, j) ↔
            j.val < Memory.entryCount parent.1 := Iff.rfl
        split
        next hj =>
          refine (hcopied.done j (hcount.mp hj)).trans ?_
          by_cases hp : parent.1 = task0
          · rw [← h.kernelView h₁ hp (hkernel hp) hj]
            unfold Memory.view Memory.entry
            rw [if_pos (show isPresent (s.dir parent) = true from hpresent)]
            rfl
          · rw [← hagree₁.view (parent, j) hp id]
            unfold Memory.view Memory.entry
            rw [if_pos (show isPresent (s.dir parent) = true from hpresent)]
            rfl
        next hj =>
          have htodo : s₂.mem ct j = 0#32 := hcopied.todo j
            (Nat.not_lt.mp fun hlt => hj (hcount.mpr hlt))
          rw [htodo]
          exact shown_zero _

/-- Block by block the child gets the space of its parent. -/
theorem Good.copyBlocks {parent child : Slot} {is : List (Fin 16)}
    (h : Good boot K s) (hnodup : is.Nodup) (hchild : child ≠ task0)
    (hfree : ∀ i ∈ is, s.pageTables (child, i) = none)
    (hne : parent ≠ child)
    (hkernel : parent = task0 → ∀ i ∈ is, KernelTable boot (parent, i)) :
    ∃ s' r, s.copyBlocks parent child is = some (s', r) ∧ Good boot K s' ∧
      Agree (·.1.1 = child) s s' ∧
      (r = .ok () → (∀ i ∈ is, ∀ j, s'.view ((child, i), j) =
          if Copyable ((parent, i), j) then s.view ((parent, i), j)
          else none) ∧
        ∀ i ∉ is, ∀ j, s'.view ((child, i), j) = s.view ((child, i), j)) ∧
      (r ≠ .ok () → ∀ i, s'.pageTables (child, i) = none) := by
  induction is generalizing s with
  | nil =>
    exact ⟨s, .ok (), rfl, h, Agree.refl _ s,
      fun _ => ⟨fun i hi => absurd hi List.not_mem_nil, fun _ _ _ => rfl⟩,
      fun hr => absurd rfl hr⟩
  | cons i is ih =>
    obtain ⟨hi, hnodup⟩ := List.nodup_cons.mp hnodup
    obtain ⟨s₁, r, hrun, h₁, hagree₁, hok, -⟩ :=
      @Good.copyBlock _ _ _ (parent, i) (child, i) h hchild
        (hfree i List.mem_cons_self) hne rfl
        fun hp => hkernel hp i List.mem_cons_self
    have hslot : ∀ q : LinPage, q.1 = (child, i) → q.1.1 = child :=
      fun q hq => congrArg Prod.fst hq
    unfold Memory.copyBlocks
    rw [hrun]
    cases r with
    | error e =>
      obtain ⟨s', hdrop, h', hagree', -, htables'⟩ := h₁.dropSpace hchild
      refine ⟨s', .error e, ?_, h', (hagree₁.weaken hslot).trans hagree',
        fun hr => (by cases hr), fun _ => htables'⟩
      dsimp only
      rw [hdrop]
      rfl
    | ok u =>
      obtain ⟨s', r, hrun', h', hagree', hok', herr⟩ := ih h₁ hnodup
        (fun k hk => by
          have hki : (child, k) ≠ (child, i) := by
            rintro heq
            obtain rfl : k = i := congrArg Prod.snd heq
            exact hi hk
          rw [hagree₁.tables _ fun _ heq => hki heq]
          exact hfree k (.tail _ hk))
        fun hp k hk => hkernel hp k (.tail _ hk)
      refine ⟨s', r, hrun', h', (hagree₁.weaken hslot).trans hagree',
        fun hr => ⟨?_, ?_⟩, herr⟩
      · intro k hk j
        obtain ⟨hdone, hrest⟩ := hok' hr
        rcases List.mem_cons.mp hk with rfl | hk
        · exact (hrest k hi j).trans (hok rfl j)
        · rw [hdone k hk j]
          split
          next hcopy =>
            by_cases hp : parent = task0
            · exact h.kernelView h₁ hp (hkernel hp k (.tail _ hk)) hcopy
            · exact hagree₁.view ((parent, k), j) hp fun heq =>
                hne (congrArg Prod.fst heq)
          next => rfl
      · intro k hk j
        obtain ⟨hki, hk⟩ := List.ne_and_not_mem_of_not_mem_cons hk
        obtain ⟨-, hrest⟩ := hok' hr
        rw [hrest k hk j]
        exact hagree₁.view ((child, k), j) hchild fun heq =>
          hki (congrArg Prod.snd heq)

end Blocks

end LinuxRs.Mm
