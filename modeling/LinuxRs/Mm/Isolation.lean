/-
What holds of processes and frames in every order of steps.

The states that show the results at work start with a fork of the idle task
and a first own page of its child. That its frames are there is a matter of
counting: few handles leave frames free (`Good.alloc_of_few`).
-/
import LinuxRs.Mm.Users

namespace LinuxRs.Mm

open Lib (Reachable run pointers)

-- ======== the start

section Start

variable (startMem endMem : Nat) (junk : Nat → Page)

theorem kernelTable_boot :
    KernelTable (.boot startMem endMem junk) (task0, 0) := by
  intro _
  have hdir : (Memory.boot startMem endMem junk).dir (task0, 0)
      = newEntry 1 userRw := by
    unfold Memory.boot
    dsimp only
    rw [if_pos (by decide)]
    rfl
  rw [hdir, ppn_userRw (by decide)]
  refine ⟨by decide, fun j hj => ?_⟩
  have hj' : j.val < 160 := hj
  have hmem : (Memory.boot startMem endMem junk).mem 1 j
      = newEntry ((1 - 1) * 1024 + j.val) userRw := by
    unfold Memory.boot
    dsimp only
    rw [if_pos (by decide)]
  rw [hmem, ppn_userRw (by omega)]
  unfold unpagedPages
  omega

theorem SysOk.boot :
    SysOk (.boot startMem endMem junk) (.boot startMem endMem junk) := by
  refine ⟨⟨⟨⟨fun f hf => ?_, nofun, nofun, nofun, nofun, nofun, nofun⟩,
    nofun, fun _ _ => rfl, nofun, fun _ _ => rfl, fun _ hf => hf⟩,
    fun _ _ => rfl, nofun, fun b hb _ => ?_⟩, fun _ _ _ _ => rfl⟩
  · have hnone {T : Type} [Fintype T] :
        pointers (fun _ : T => (none : Option Nat)) f = 0 :=
      Lib.pointers_eq_zero fun _ => nofun
    refine hf.2.2.trans ?_
    show 0 = pointers (fun _ : Block => none) f
      + pointers (fun _ : LinPage => none) f + [].count f
    rw [hnone, hnone]
    rfl
  · have hdir : (Memory.boot startMem endMem junk).dir b = 0 :=
      if_neg fun hc => hb hc.1
    show isPresent ((Memory.boot startMem endMem junk).dir b) = false
    rw [hdir]
    rfl

end Start

section Runs

variable {startMem endMem : Nat} {junk : Nat → Page} {s s' : Sys} {op : Op}

theorem SysOk.step (h : SysOk (.boot startMem endMem junk) s)
    (hstep : s.step op = some s') :
    SysOk (.boot startMem endMem junk) s' ∧
      Agree (fun q => op.subject = some q.1.1) s.memory s'.memory ∧
      op.Effect s.memory s'.memory := by
  unfold Sys.step at hstep
  split at hstep
  next hop =>
    have hin : ¬ op.Strays s.memory := fun hs => by
      rw [act_strays hs] at hstep
      cases hstep
    obtain ⟨s₁, hact, hok, hagree, heffect⟩ :=
      h.act (kernelTable_boot startMem endMem junk) hop hin
    obtain rfl := Option.some.inj (hact.symm.trans hstep)
    exact ⟨hok, hagree, heffect⟩
  next => cases hstep

theorem SysOk.of_reachable
    (h : Reachable Sys.step (.boot startMem endMem junk) s) :
    SysOk (.boot startMem endMem junk) s :=
  h.invariant (SysOk.boot startMem endMem junk)
    fun _ _ _ hok hstep => (hok.step hstep).1

theorem SysOk.run {ops : List Op} {slot : Slot} (hslot : slot ≠ task0)
    (h : SysOk (.boot startMem endMem junk) s)
    (hrun : run Sys.step s ops = some s')
    (hops : ∀ op ∈ ops, op.subject ≠ some slot) {p : LinPage}
    (hp : p.1.1 = slot) : s'.memory.view p = s.memory.view p := by
  induction ops generalizing s with
  | nil =>
    obtain rfl := Option.some.inj hrun
    rfl
  | cons op ops ih =>
    obtain ⟨s₁, hstep, hrest⟩ := Option.bind_eq_some_iff.mp hrun
    obtain ⟨h₁, hagree, -⟩ := h.step hstep
    rw [ih h₁ hrest fun o ho => hops o (.tail _ ho)]
    exact hagree.view p (hp ▸ hslot) fun heq =>
      hops op List.mem_cons_self (hp ▸ heq)

theorem SysOk.next (h : SysOk (.boot startMem endMem junk) s)
    (op : Op) (hop : op.Enabled s) (hin : ¬ op.Strays s.memory) :
    ∃ s', s.step op = some s' := by
  obtain ⟨s', hact, -⟩ :=
    h.act (kernelTable_boot startMem endMem junk) hop hin
  exact ⟨s', (if_pos hop).trans hact⟩

/-- What the pages of a child show. -/
theorem SysOk.fork_view {parent child : Slot} {n : Nat} {p : LinPage}
    (hok : SysOk (.boot startMem endMem junk) s)
    (hfork : s.step (.fork parent child n) = some s')
    (hlive : s'.live child = true) (hp : p.1.1 = child) :
    s'.memory.view p =
      if p.1.2.val < n ∧ Copyable (forkSource parent p) then
        s.memory.view (forkSource parent p)
      else none := by
  unfold Sys.step at hfork
  split at hfork
  next hop =>
    obtain ⟨hparent, hchild, hdead, hn⟩ := hop
    have hne : parent ≠ child := by
      rintro rfl
      rw [hparent] at hdead
      cases hdead
    obtain ⟨m, r, hcopy, -, -, -, heffect⟩ := hok.good.cowCopy
      (kernelTable_boot startMem endMem junk) hchild hne hn
      fun i => hok.dead child i hchild hdead
    dsimp only [Sys.act] at hfork
    rw [hcopy] at hfork
    obtain rfl := Option.some.inj hfork
    have hr : r = .ok () := by
      by_contra hr
      dsimp only at hlive
      rw [if_neg hr, hdead] at hlive
      cases hlive
    rw [if_pos hr] at heffect
    refine (heffect p (hp ▸ hchild)).trans ?_
    have hnone : s.memory.view p = none := by
      rw [hok.good.view (hp ▸ hchild)]
      exact congrArg (fun o => Option.bind o _)
        (hp ▸ hok.dead child p.1.2 hchild hdead)
    dsimp only
    rw [hnone]
    refine if_congr ⟨fun hc => hc.2, fun hc => ⟨hp, hc⟩⟩ rfl rfl
  next => cases hfork

-- ======== few handles

/-- Fewer handles than frames leave a frame free. -/
theorem Good.alloc_of_few {boot m : Memory} {K : List Nat}
    (h : Good boot K m) (hboot : ∀ f, unpagedPages ≤ f →
      f < unpagedPages + pagingPages → Tracked boot f) {F : Finset Nat}
    (hcard : F.card < pagingPages) (hK : ∀ f ∈ K, f ∈ F)
    (hT : ∀ b f, m.pageTables b = some f → f ∈ F)
    (hD : ∀ p f, m.dataFrames p = some f → f ∈ F) : m.alloc ≠ none := by
  intro hnone
  obtain ⟨f, hf, hout⟩ : ∃ f ∈ (Finset.range pagingPages).image
      (unpagedPages + ·), f ∉ F := by
    apply Finset.exists_mem_notMem_of_card_lt_card
    rw [Finset.card_image_of_injective _ (add_right_injective _),
      Finset.card_range]
    exact hcard
  obtain ⟨i, hi, hfi⟩ := Finset.mem_image.mp hf
  have hlt := Finset.mem_range.mp hi
  have hlow : unpagedPages ≤ f := by omega
  have hhigh : f < unpagedPages + pagingPages := by omega
  have hzero : m.memMap f = 0 := by
    rw [h.inv.ledger.exact f (hboot f hlow hhigh),
      Lib.pointers_eq_zero fun b hb => hout (hT b f hb),
      Lib.pointers_eq_zero fun p hp => hout (hD p f hp),
      List.count_eq_zero.mpr fun hk => hout (hK f hk)]
  have hpos := rposition_none (Option.map_eq_none_iff.mp hnone)
    (f - unpagedPages) (by omega)
  rw [Nat.add_sub_cancel' hlow, hzero] at hpos
  cases hpos

/-- A state whose users' pages lie in one slot and, but for one, in low
memory. -/
theorem SysOk.alloc_of_one {boot : Memory} (h : SysOk boot s)
    (hboot : ∀ f, unpagedPages ≤ f →
      f < unpagedPages + pagingPages → Tracked boot f)
    (hkept : s.kept = []) {p : LinPage}
    (htables : ∀ b : Block, b.1 ≠ p.1.1 → s.memory.pageTables b = none)
    (hview : ∀ q : LinPage, q.1.1 = p.1.1 → q ≠ p →
      ∀ c, s.memory.view q ≠ some (.inr c)) : s.memory.alloc ≠ none := by
  let F : Finset Nat := insert ((s.memory.dataFrames p).getD 0)
    (Finset.univ.image fun i : Fin 16 =>
      (s.memory.pageTables (p.1.1, i)).getD 0)
  have hcard : F.card ≤ 17 := (Finset.card_insert_le _ _).trans
    (Nat.succ_le_succ (Finset.card_image_le.trans (by simp)))
  have hslot : ∀ {b : Block} {t}, s.memory.pageTables b = some t →
      b.1 = p.1.1 := fun hb => by_contra fun hne => by
    rw [htables _ hne] at hb
    cases hb
  refine h.good.alloc_of_few hboot (Nat.lt_of_le_of_lt hcard (by decide))
    (hkept ▸ nofun) (fun b f hb => ?_) fun q f hq => ?_
  · refine Finset.mem_insert_of_mem (Finset.mem_image.mpr
      ⟨b.2, Finset.mem_univ _, ?_⟩)
    rw [← hslot hb, hb]
    rfl
  · refine Finset.mem_insert.mpr (.inl ?_)
    cases hT : s.memory.pageTables q.1 with
    | none =>
      rw [h.good.inv.bare q hT] at hq
      cases hq
    | some t =>
      have hqp : q = p := by
        by_contra hne
        have hentry := h.good.inv.entries q t hT
        unfold EntryOk at hentry
        rw [hq] at hentry
        split at hentry
        next hpresent =>
          rcases hentry with ⟨hf, -⟩ | ⟨hf, -⟩
          · have hlow := (h.good.inv.data_tracked (hq.trans hf)).1
            refine hview q (hslot hT) hne
              (s.memory.mem (ppn (s.memory.mem t q.2))) ?_
            rw [h.good.view (h.good.inv.user _ t hT)]
            unfold tableView
            rw [hT]
            show shown _ _ = _
            unfold shown
            rw [if_pos hpresent, if_neg (Nat.not_lt.mpr hlow)]
          · cases hf
        next => cases hentry
      rw [← hqp, hq]
      rfl

/-- A fork of one page goes through while there is a frame. -/
theorem SysOk.fork_one (h : SysOk (.boot startMem endMem junk) s)
    (parent child : Slot)
    (hop : (Op.fork parent child 1).Enabled s)
    (halloc : s.memory.alloc ≠ none) :
    ∃ s₁, s.step (.fork parent child 1) = some s₁ ∧
      s₁.live = Function.update s.live child true ∧ s₁.kept = s.kept := by
  have hk := kernelTable_boot startMem endMem junk
  obtain ⟨hparent, hchild, hdead, hn⟩ := hop
  have hne : parent ≠ child := by
    rintro rfl
    rw [hparent] at hdead
    cases hdead
  obtain ⟨m, r, hrun, -, -, -, herr⟩ :=
    @Good.copyBlock _ _ _ (parent, 0) (child, 0) h.good hchild
      (h.dead child 0 hchild hdead) hne rfl
      fun hp => (show parent = task0 from hp) ▸ hk
  have hr : r = .ok () := by
    by_contra hr
    exact halloc (herr hr)
  subst hr
  have hcopy : s.memory.cowCopy parent child 1 = some (m, .ok ()) := by
    unfold Memory.cowCopy
    rw [show (List.finRange 16).take 1 = [0] from by decide]
    unfold Memory.copyBlocks
    rw [show s.memory.copyBlock (parent, 0) (child, 0)
      = some (m, .ok ()) from hrun]
    rfl
  refine ⟨{ s with
    memory := m
    live := Function.update s.live child true }, ?_, rfl, rfl⟩
  unfold Sys.step
  rw [if_pos (by exact ⟨hparent, hchild, hdead, hn⟩)]
  dsimp only [Sys.act]
  rw [hcopy]
  rfl

-- ======== a first process

/-- A machine with 16 MB. -/
abbrev machine : Sys := .boot 0x200000 0x1000000 fun _ _ => 0

theorem machine_tracked (f : Nat) (hlow : unpagedPages ≤ f)
    (hhigh : f < unpagedPages + pagingPages) :
    Tracked (.boot 0x200000 0x1000000 fun _ _ => 0) f :=
  ⟨hlow, hhigh, if_pos ⟨hlow, hhigh⟩⟩

theorem machine_view (j : Fin 1024) (hj : j.val < 160) :
    machine.memory.view ((task0, 0), j) = some (.inl j.val) := by
  have hdir : machine.memory.dir (task0, 0) = newEntry 1 userRw := rfl
  have hmem : machine.memory.mem 1 j = newEntry j.val userRw := by
    show newEntry ((1 - 1) * 1024 + j.val) userRw = _
    rw [Nat.sub_self, Nat.zero_mul, Nat.zero_add]
  unfold Memory.view Memory.entry
  rw [hdir, if_pos (isPresent_newEntry 1), ppn_userRw (by decide)]
  show shown _ (machine.memory.mem 1 j) = _
  rw [hmem]
  unfold shown
  rw [if_pos (isPresent_newEntry _), ppn_userRw (by omega),
    if_pos (by unfold unpagedPages; omega)]

/-- The first process is forked and gets a page of its own. -/
theorem machine_runs :
    ∃ s₁ s₂ : Sys, machine.step (.fork task0 1 1) = some s₁ ∧
      s₁.step (.makeWritable 1 ((1, 0), 5)) = some s₂ ∧
      s₁.live = Function.update machine.live 1 true ∧ s₂.live = s₁.live ∧
      s₁.memory.view ((1, 0), 5) = some (.inl 5) ∧
      s₂.memory.canStore ((1, 0), 5) = true ∧
      s₂.memory.view ((1, 0), 5) = some (.inr fun _ => 0) ∧
      s₂.memory.alloc ≠ none := by
  have h := SysOk.boot 0x200000 0x1000000 fun _ _ => 0
  have halloc : machine.memory.alloc ≠ none :=
    SysOk.alloc_of_one (p := ((1, 0), 5)) h machine_tracked rfl
      (fun _ _ => rfl) fun q hq _ c hc => by
        rw [h.good.view (hq ▸ by decide)] at hc
        cases hc
  obtain ⟨s₁, hstep₁, hlive₁, hkept₁⟩ := h.fork_one task0 1
    ⟨rfl, by decide, rfl, fun _ => Nat.le_refl 1⟩ halloc
  obtain ⟨h₁, hagree₁, -⟩ := h.step hstep₁
  have hlive : s₁.live 1 = true := by
    rw [hlive₁]
    exact Function.update_self ..
  have hview₁ : ∀ q : LinPage, q.1.1 = 1 → s₁.memory.view q =
      if q.1.2.val < 1 ∧ q.2.val < 160 then some (.inl q.2.val) else none := by
    intro q hq
    rw [h.fork_view hstep₁ hlive hq]
    refine ite_congr rfl (fun hc => ?_) fun _ => rfl
    obtain ⟨⟨a, i⟩, j⟩ := q
    obtain rfl : i = 0 := Fin.ext (Nat.lt_one_iff.mp hc.1)
    exact machine_view j hc.2
  have htables₁ : ∀ b : Block, b.1 ≠ 1 → s₁.memory.pageTables b = none :=
    fun b hb => hagree₁.tables b fun _ heq => hb (Option.some.inj heq).symm
  have hpage : s₁.memory.view ((1, 0), 5) = some (.inl 5) := hview₁ _ rfl
  have halloc₁ : s₁.memory.alloc ≠ none :=
    SysOk.alloc_of_one (p := ((1, 0), 5)) h₁ machine_tracked hkept₁ htables₁
      fun q hq _ c hc => by
        rw [hview₁ q hq] at hc
        split at hc <;> cases hc
  have hop : (Op.makeWritable 1 ((1, 0), 5)).Enabled s₁ := by
    refine ⟨by decide, hlive, ?_⟩
    rw [mapped_eq, hpage]
    rfl
  obtain ⟨m, r, hrun, -, hagree, hok, herr⟩ :=
    h₁.good.ensurePageWritable (p := ((1, 0), 5)) hop.1 hop.2.2
  have hr : r = .ok () := by
    by_contra hr
    exact halloc₁ (herr hr).2
  obtain ⟨hcan, hown⟩ := hok hr
  have hstep₂ : s₁.step (.makeWritable 1 ((1, 0), 5))
      = some { s₁ with memory := m } := by
    refine (if_pos hop).trans ?_
    dsimp only [Sys.act]
    rw [show s₁.memory.ensurePageWritable 1 ((1, 0), 5) = some (m, r) from hrun]
    rfl
  obtain ⟨h₂, hagree₂, -⟩ := h₁.step hstep₂
  refine ⟨s₁, _, hstep₁, hstep₂, hlive₁, rfl, hpage, hcan, ?_,
    SysOk.alloc_of_one (p := ((1, 0), 5)) h₂ machine_tracked hkept₁
      (fun b hb => (hagree₂.tables b fun _ heq =>
        hb (Option.some.inj heq).symm).trans (htables₁ b hb))
      fun q hq hne c hc => ?_⟩
  · refine hown.trans ?_
    rw [hpage]
    show some (Sum.inr (s₁.memory.mem 5)) = _
    rw [h₁.good.inv.low 5 (by decide)]
    rfl
  · rw [show ({ s₁ with memory := m } : Sys).memory.view q
      = s₁.memory.view q from hagree.view q (hq ▸ by decide) hne,
      hview₁ q hq] at hc
    split at hc <;> cases hc

-- ======== results

/-- In every state that is reached, a step that can come panics exactly if it
is a stray fault: no count under- or overflows, no page table of the task is
missing and no table is overwritten. -/
theorem never_panics
    (h : Reachable Sys.step (.boot startMem endMem junk) s)
    (hop : op.Enabled s) : (s.act op).isSome ↔ ¬ op.Strays s.memory := by
  constructor
  · intro hsome hs
    rw [act_strays hs] at hsome
    cases hsome
  · intro hin
    obtain ⟨s', hact, -⟩ := (SysOk.of_reachable h).act
      (kernelTable_boot startMem endMem junk) hop hin
    rw [hact]
    rfl

theorem never_panics_fork : (machine.act (.fork task0 1 1)).isSome := by
  have hop : (Op.fork task0 1 1).Enabled machine :=
    ⟨rfl, by decide, rfl, fun _ => Nat.le_refl 1⟩
  exact (never_panics .refl hop).mpr id

/-- The frame a program can store to is mapped by no other page of a process
and is no page table. -/
def Memory.StoresAlone (m : Memory) : Prop :=
  ∀ (p : LinPage) e, p.1.1 ≠ task0 → m.canStore p = true → m.entry p = some e →
    unpagedPages ≤ ppn e ∧
    (∀ (q : LinPage) e', q.1.1 ≠ task0 → q ≠ p → m.entry q = some e' →
      isPresent e' = true → ppn e' ≠ ppn e) ∧
    ∀ b : Block, b.1 ≠ task0 → isPresent (m.dir b) = true →
      ppn (m.dir b) ≠ ppn e

/-- In every state that is reached, programs store to frames of their own
only. -/
theorem stores_alone
    (h : Reachable Sys.step (.boot startMem endMem junk) s) :
    s.memory.StoresAlone := by
  have hgood := (SysOk.of_reachable h).good
  intro p e hp hcan hpte
  unfold Memory.canStore at hcan
  rw [hpte] at hcan
  obtain ⟨hpresent, hwrite⟩ := Bool.and_eq_true_iff.mp hcan
  have hmapped : ∀ {q : LinPage} {e'}, s.memory.entry q = some e' →
      isPresent e' = true → s.memory.mapped q = true := by
    intro q e' hq hpresent'
    unfold Memory.mapped
    rw [hq]
    exact hpresent'
  obtain ⟨t, hT, hpte', -⟩ := hgood.mapped_entry hp (hmapped hpte hpresent)
  obtain rfl := Option.some.inj (hpte.symm.trans hpte')
  obtain ⟨hD, hone⟩ :=
    (hgood.inv.entries p t hT).writable hpresent hwrite
  have hlow := (hgood.inv.data_tracked hD).1
  refine ⟨hlow, fun q e' hq hne hpteq hpresent' heq => ?_,
    fun b hb hdir heq => ?_⟩
  · obtain ⟨u, hU, hpteq', -⟩ :=
      hgood.mapped_entry hq (hmapped hpteq hpresent')
    obtain rfl := Option.some.inj (hpteq.symm.trans hpteq')
    have hentry := hgood.inv.entries q u hU
    unfold EntryOk at hentry
    rw [if_pos hpresent', heq] at hentry
    rcases hentry with ⟨hDq, -⟩ | ⟨-, hlow', -⟩
    · exact hne (hgood.inv.ledger.shared_unique hone hDq hD)
    · exact absurd hlow' (Nat.not_lt.mpr hlow)
  · rw [hgood.dirs.present_iff hb] at hdir
    obtain ⟨u, hU⟩ := Option.isSome_iff_exists.mp hdir
    rw [hgood.dirs.present b u hU, userPageTable,
      ppn_userRw (hgood.inv.table_tracked hU).lt] at heq
    exact hgood.inv.ledger.shared_ne_single hU (heq ▸ hD)

theorem stores_alone_fork :
    ∃ s : Sys, s.memory.canStore ((1, 0), 5) = true ∧ s.memory.StoresAlone := by
  obtain ⟨s₁, s, hfork, hown, -, -, -, hcan, -⟩ := machine_runs
  exact ⟨s, hcan, stores_alone ((Reachable.refl.step _ hfork).step _ hown)⟩

end Runs

end LinuxRs.Mm
