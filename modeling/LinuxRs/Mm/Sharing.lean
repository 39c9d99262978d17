/-
Copy on write: shared pages, stores, and the end of a memory space.
-/
import LinuxRs.Mm.Mapping

namespace LinuxRs.Mm

/-- Whether the processor lets a store through. -/
def Memory.canStore (s : Memory) (p : LinPage) : Bool :=
  (s.entry p).any fun e => isPresent e && isWritable e

section Calls

variable {boot s s' : Memory} {K : List Nat} {p q : LinPage} {f t : Nat}

theorem Good.mapped_entry (h : Good boot K s) (hp : p.1.1 ≠ task0)
    (hm : s.mapped p = true) : ∃ t, s.pageTables p.1 = some t ∧
      s.entry p = some (s.mem t p.2) ∧ isPresent (s.mem t p.2) = true ∧
      s.view p = shown s.mem (s.mem t p.2) := by
  have hview := h.view hp
  unfold tableView at hview
  unfold Memory.mapped at hm
  cases hT : s.pageTables p.1 with
  | none =>
    have habsent := h.dirs.absent p.1 hp hT
    unfold Memory.entry at hm
    rw [if_neg (Bool.eq_false_iff.mp habsent)] at hm
    cases hm
  | some t =>
    rw [hT] at hview
    have hpte := h.dirs.entry h.inv hT
    rw [hpte] at hm
    exact ⟨t, rfl, hpte, hm, hview⟩

theorem canStore_of_pte {e : Word} (hpte : s.entry p = some e)
    (hpresent : isPresent e = true) (hwrite : isWritable e = true) :
    s.canStore p = true := by
  unfold Memory.canStore
  rw [hpte]
  exact Bool.and_eq_true_iff.mpr ⟨hpresent, hwrite⟩

/-- What a page shows when it has frames of its own: low memory is copied. -/
def owned (mem : Nat → Page) : Nat ⊕ Page → Nat ⊕ Page
  | .inl f => .inr (mem f)
  | .inr c => .inr c

/-- The page gets a frame of its own with what it showed. -/
theorem Good.copyToOwn {old : Nat} (h : Good boot K s)
    (hT : s.pageTables p.1 = some t)
    (hold : old < unpagedPages ∨ ∃ r, s.dataFrames r = some old) :
    ∃ s' r, s.copyToOwn p.1.1 p old = some (s', r) ∧ Good boot K s' ∧
      Agree (· = p) s s' ∧
      (r = .ok () → s'.canStore p = true ∧
        s'.view p = some (.inr (s.mem old))) ∧
      (r ≠ .ok () → s' = s ∧ s.alloc = none) := by
  unfold Memory.copyToOwn
  cases halloc : s.alloc with
  | none =>
    exact ⟨s, .error .nomem, rfl, h, Agree.refl _ s,
      fun hr => (by cases hr), fun _ => ⟨rfl, rfl⟩⟩
  | some r =>
    obtain ⟨s₁, f⟩ := r
    obtain ⟨h₁, hf, hzero, hagree₁, rfl⟩ := h.alloc halloc
    obtain ⟨s₂, hrun, h₂, hagree₂, -, hD₂, hone, hpte₂, hmem₂⟩ := h₁.remap hT
    obtain ⟨hinv₃, hview₃, hrest₃⟩ :=
      h₂.inv.writeFrame hD₂ hone (s₂.mem old)
    have h₃ : Good boot K (s₂.copyPage old f) := h₂.of hinv₃ rfl rfl
    have hp := h.inv.user p.1 t hT
    have hsrc : s₂.mem old = s.mem old := by
      have hnotf : old ≠ f := by
        rintro rfl
        rcases hold with hlow | ⟨r, hr⟩
        · exact absurd hf.1 (Nat.not_le.mpr hlow)
        · exact (h.inv.ledger.no_handle hzero).2.2 r hr
      have hnott : old ≠ t := by
        rintro rfl
        rcases hold with hlow | ⟨r, hr⟩
        · exact absurd (h.inv.table_tracked hT).1 (Nat.not_le.mpr hlow)
        · exact h.inv.ledger.shared_ne_single hT hr
      rw [hmem₂ _ hnott]
      exact Function.update_of_ne hnotf _ _
    refine ⟨s₂.copyPage old f, .ok (), ?_, h₃, ?_, fun _ => ⟨?_, ?_⟩,
      fun hr => absurd rfl hr⟩
    · dsimp only
      rw [hrun]
      rfl
    · exact ((hagree₁.weaken fun _ hf => hf.elim).trans hagree₂).trans
        (h₂.agree h₃ rfl hrest₃)
    · refine canStore_of_pte (e := newEntry f userRw) ?_
        (isPresent_newEntry f) (newEntry_low f userRw (by decide))
      cases hT₂ : s₂.pageTables p.1 with
      | none =>
        rw [h₂.inv.bare p hT₂] at hD₂
        cases hD₂
      | some u =>
        have hu : u ≠ f := fun heq =>
          h₂.inv.ledger.shared_ne_single (heq ▸ hT₂) hD₂
        rw [h₂.dirs.entry h₂.inv hT₂] at hpte₂
        rw [h₃.dirs.entry h₃.inv hT₂, ← hpte₂]
        exact congrArg some (congrFun (Function.update_of_ne hu _ _) p.2)
    · rw [h₃.view hp, ← hsrc]
      exact hview₃

/-- The page can be stored to afterwards and shows what it showed, unless
there is no memory. -/
theorem Good.ensurePageWritable (h : Good boot K s) (hp : p.1.1 ≠ task0)
    (hm : s.mapped p = true) :
    ∃ s' r, s.ensurePageWritable p.1.1 p = some (s', r) ∧ Good boot K s' ∧
      Agree (· = p) s s' ∧
      (r = .ok () → s'.canStore p = true ∧
        s'.view p = (s.view p).map (owned s.mem)) ∧
      (r ≠ .ok () → s' = s ∧ s.alloc = none) := by
  obtain ⟨t, hT, hpte, hpresent, hview⟩ := h.mapped_entry hp hm
  have hentry := h.inv.entries p t hT
  unfold Memory.ensurePageWritable Memory.refCount
  rw [Memory.pte_own, hpte]
  dsimp only
  generalize he : s.mem t p.2 = e at *
  have hshown : (s.view p).map (owned s.mem)
      = some (.inr (s.mem (ppn e))) := by
    rw [hview]
    unfold shown
    rw [if_pos hpresent]
    split <;> rfl
  rw [hshown]
  unfold EntryOk at hentry
  rw [if_pos hpresent] at hentry
  rcases hentry with ⟨hD, -⟩ | ⟨-, hlow, -⟩
  · have hf := h.inv.data_tracked hD
    have hlow := hf.1
    have hhigh := hf.2.1
    rw [if_neg (by omega), if_neg (by omega)]
    by_cases hone : s.memMap (ppn e) = 1
    · rw [hone]
      have hfit : EntryOk s.memMap (s.dataFrames p) (madeWritable e) := by
        unfold EntryOk
        rw [isPresent_madeWritable, if_pos hpresent, ppn_madeWritable]
        exact .inl ⟨hD, fun _ => hone⟩
      obtain ⟨hinv, hself, hrest⟩ := h.inv.setEntry hT hfit
      have h' : Good boot K (s.setWord t p.2 (madeWritable e)) :=
        h.of hinv rfl rfl
      refine ⟨s.setWord t p.2 (madeWritable e), .ok (), ?_, h',
        h.agree h' rfl hrest, fun _ => ⟨?_, ?_⟩, fun hr => absurd rfl hr⟩
      · rw [h.dirs.setPte h.inv hT]
        rfl
      · refine canStore_of_pte (e := madeWritable e) ?_ ?_ ?_
        · rw [h'.dirs.entry h'.inv hT, setWord_mem, if_pos ⟨rfl, rfl⟩]
        · rw [isPresent_madeWritable, hpresent]
        · exact isWritable_madeWritable e
      · rw [h'.view hp]
        refine hself.trans ?_
        unfold shown
        rw [isPresent_madeWritable, if_pos hpresent, ppn_madeWritable,
          if_neg (Nat.not_lt.mpr hlow)]
    · split
      next heq => cases heq
      next heq => exact absurd (Option.some.inj heq) hone
      next => exact h.copyToOwn hT (.inr ⟨p, hD⟩)
  · rw [if_pos hlow]
    exact h.copyToOwn hT (.inl hlow)

theorem store_isSome (h : Good boot K s) (hp : p.1.1 ≠ task0)
    (hcan : s.canStore p = true) (j : Fin 1024) (v : Word) :
    ∃ s', s.store p j v = some s' := by
  unfold Memory.canStore at hcan
  unfold Memory.store
  cases hpte : s.entry p with
  | none =>
    rw [hpte] at hcan
    cases hcan
  | some e =>
    rw [hpte] at hcan
    have hboth := Bool.and_eq_true_iff.mp hcan
    have hm : s.mapped p = true := by
      unfold Memory.mapped
      rw [hpte]
      exact hboth.1
    obtain ⟨t, hT, -⟩ := h.mapped_entry hp hm
    dsimp only
    rw [if_pos hboth, h.dirs.setEntry h.inv hT]
    exact ⟨_, rfl⟩

/-- A store changes one word of one page. -/
theorem Good.store {j : Fin 1024} {v : Word} (h : Good boot K s)
    (hp : p.1.1 ≠ task0) (hrun : s.store p j v = some s') :
    Good boot K s' ∧ Agree (· = p) s s' ∧ ∃ c : Page,
      s.view p = some (.inr c) ∧
      s'.view p = some (.inr (Function.update c j v)) := by
  have hm : s.mapped p = true := by
    unfold Memory.store at hrun
    unfold Memory.mapped
    split at hrun
    next => cases hrun
    next e hpte =>
      split at hrun
      next hcan => rw [hpte]; exact hcan.1
      next => cases hrun
  obtain ⟨t, hT, hpte, hpresent, hview⟩ := h.mapped_entry hp hm
  have hentry := h.inv.entries p t hT
  unfold Memory.store at hrun
  rw [hpte] at hrun
  dsimp only at hrun
  generalize he : s.mem t p.2 = e at *
  split at hrun
  next hcan =>
    obtain ⟨hD, hone⟩ := hentry.writable hpresent hcan.2
    have hlow := (h.inv.data_tracked hD).1
    have hft : ppn e ≠ t := fun heq =>
      h.inv.ledger.shared_ne_single (heq ▸ hT) hD
    rw [h.dirs.setEntry h.inv hT] at hrun
    obtain rfl := Option.some.inj hrun
    obtain ⟨hinv₁, hself₁, hrest₁⟩ := h.inv.setEntry hT
      (hentry.replace (isPresent_accessed e) (ppn_accessed e)
        fun hw => by rwa [isWritable_accessed] at hw)
    obtain ⟨hinv, hself, hrest⟩ := hinv₁.writeFrame hD hone
      (Function.update ((s.setWord t p.2 (e ||| accessFlags)).mem (ppn e))
        j v)
    have h' : Good boot K ((s.setWord t p.2 (e ||| accessFlags)).setWord
        (ppn e) j v) := h.of hinv rfl rfl
    refine ⟨h', h.agree h' rfl fun q hq => (hrest q hq).trans (hrest₁ q hq),
      s.mem (ppn e), ?_, ?_⟩
    · rw [hview]
      unfold shown
      rw [if_pos hpresent, if_neg (Nat.not_lt.mpr hlow)]
    · have hkept : (s.setWord t p.2 (e ||| accessFlags)).mem (ppn e)
          = s.mem (ppn e) := Function.update_of_ne hft _ _
      rw [h'.view hp, ← hkept]
      exact hself
  next => cases hrun

/-- Two pages come to share a frame, read only. -/
theorem Good.shareEntry {tp tq : Nat} {e : Word} (h : Good boot K s)
    (hTp : s.pageTables p.1 = some tp) (he : s.mem tp p.2 = e)
    (hpresent : isPresent e = true) (hlow : unpagedPages ≤ ppn e)
    (hD : s.dataFrames p = some (ppn e)) (hTq : s.pageTables q.1 = some tq)
    (hDq : s.dataFrames q = none) (hplace : place p = place q) :
    ∃ s', s.shareEntry p q e = some s' ∧ Good boot K s' ∧
      Agree (· = q) s s' ∧ s'.view q = s.view p := by
  have hp := h.inv.user p.1 tp hTp
  have hq := h.inv.user q.1 tq hTq
  have hf := h.inv.data_tracked hD
  have hhigh := hf.2.1
  have hle := h.inv.count_le hD
  have hpos := h.inv.ledger.shared_pos hD
  have hshown : shown s.mem (withoutWritable e) = shown s.mem e :=
    shown_replace (isPresent_withoutWritable e) (ppn_withoutWritable e)
  have hviewp : s.view p = shown s.mem e := by
    rw [h.view hp]
    unfold tableView
    rw [hTp, ← he]
    rfl
  obtain ⟨hinv₁, hself₁, hrest₁⟩ := h.inv.setEntry hTp
    ((he ▸ h.inv.entries p tp hTp).replace (isPresent_withoutWritable e)
      (ppn_withoutWritable e) fun hw => by
        rw [isWritable_withoutWritable] at hw
        cases hw)
  have h₁ : Good boot K (s.setWord tp p.2 (withoutWritable e)) :=
    h.of hinv₁ rfl rfl
  have hagree₁ : Agree (fun _ => False) s
      (s.setWord tp p.2 (withoutWritable e)) := h.agree h₁ rfl fun r _ => by
    by_cases hrp : r = p
    · rw [hrp, hself₁, hshown, ← hviewp, h.view hp]
    · exact hrest₁ r hrp
  obtain ⟨hinv₂, hself₂, hrest₂⟩ := hinv₁.shareFrame hD
    (fun u hu => by
      obtain rfl := Option.some.inj (hu.symm.trans hTp)
      rw [setWord_mem, if_pos ⟨rfl, rfl⟩, isWritable_withoutWritable])
    hTq hDq hplace (e := withoutWritable e)
    ((isPresent_withoutWritable e).trans hpresent)
    (ppn_withoutWritable e) (isWritable_withoutWritable e)
  have h₂ := h₁.of hinv₂ rfl rfl
  refine ⟨_, ?_, h₂, (hagree₁.weaken fun _ hf => hf.elim).trans
    (h₁.agree h₂ rfl hrest₂), ?_⟩
  · unfold Memory.shareEntry
    rw [h.dirs.setPte h.inv hTp, Option.bind_some, h₁.dirs.setPte h₁.inv hTq,
      Option.bind_some]
    have hshare : ((s.setWord tp p.2 (withoutWritable e)).setWord tq q.2
        (withoutWritable e)).share (ppn e) = some {
          (s.setWord tp p.2 (withoutWritable e)).setWord tq q.2
            (withoutWritable e) with
          memMap := Function.update s.memMap (ppn e)
            (s.memMap (ppn e) + 1) } := by
      refine if_neg ?_
      show ¬ (_ ∨ _ ∨ s.memMap (ppn e) = 0 ∨ s.memMap (ppn e) = 255)
      omega
    rw [hshare]
    show Memory.release _ (s.dataFrames q) = _
    rw [hDq]
    rfl
  · rw [h₂.view hq, hviewp]
    refine hself₂.trans ?_
    unfold shown
    rw [if_pos hpresent, if_neg (Nat.not_lt.mpr hlow),
      h.inv.setWord_data hTp _ hD]

/-- A page is shared with one of the same place, or nothing is done. -/
theorem Good.tryShareLocalPage (h : Good boot K s) (hp : p.1.1 ≠ task0)
    (hq : q.1.1 ≠ task0) (hplace : place p = place q) :
    ∃ s' r, s.tryShareLocalPage p q = some (s', r) ∧ Good boot K s' ∧
      Agree (· = q) s s' ∧
      s'.view q = (if r = .ok true then s.view p else s.view q) ∧
      (r = .ok true → s.view q = none) := by
  have hsame : ∀ r : Except Errno Bool, r ≠ .ok true →
      Good boot K s ∧ Agree (· = q) s s ∧
        s.view q = (if r = .ok true then s.view p else s.view q) ∧
        (r = .ok true → s.view q = none) := fun r hr =>
    ⟨h, Agree.refl _ s, (if_neg hr).symm, fun heq => absurd heq hr⟩
  unfold Memory.tryShareLocalPage
  rw [Memory.pte_own]
  cases hpte : s.entry p with
  | none => exact ⟨s, .ok false, rfl, hsame _ (by decide)⟩
  | some e =>
    dsimp only
    split
    next => exact ⟨s, .ok false, rfl, hsame _ (by decide)⟩
    next hfit =>
      split
      next => exact ⟨s, .ok false, rfl, hsame _ (by decide)⟩
      next hlow =>
        have hpresent : isPresent e = true :=
          Bool.of_not_eq_false fun hno => hfit (.inl hno)
        have hm : s.mapped p = true := by
          unfold Memory.mapped
          rw [hpte]
          exact hpresent
        obtain ⟨tp, hTp, hpte', -, hview⟩ := h.mapped_entry hp hm
        obtain rfl : e = s.mem tp p.2 :=
          Option.some.inj (hpte.symm.trans hpte')
        obtain ⟨s₁, r, hensure, h₁, hviews, htables, hmem, hkeep, hok⟩ :=
          h.ensurePageTable hq
        have hagree : Agree (· = q) s s₁ := ⟨fun x hx _ => hviews x hx,
          fun b hb => htables b fun heq => hb q.2 (heq ▸ rfl)⟩
        have hTp₁ := hkeep _ _ hTp
        have hmemp : s₁.mem tp = s.mem tp := hmem tp (.inr ⟨_, hTp⟩)
        rw [hensure]
        cases r with
        | error e =>
          refine ⟨s₁, .error e, rfl, h₁, hagree,
            ?_, fun hr => by cases hr⟩
          rw [if_neg (fun hr => by cases hr), hviews q hq]
        | ok u =>
          obtain ⟨tq, hTq⟩ := hok rfl
          dsimp only
          rw [Memory.pte_own]
          split
          next hmq =>
            refine ⟨s₁, .ok false, rfl, h₁,
              hagree, ?_, fun hr => by cases hr⟩
            rw [if_neg (by decide), hviews q hq]
          next hmq =>
            have hmq' : s₁.mapped q = false := Bool.eq_false_iff.mpr hmq
            have hnone : s.view q = none := by
              rw [mapped_eq, hviews q hq] at hmq'
              exact Option.not_isSome_iff_eq_none.mp
                (Bool.eq_false_iff.mp hmq')
            have hDq := h₁.bare hTq hmq'
            have hpq : q ≠ p := by
              rintro rfl
              rw [mapped_eq, hviews q hq, ← mapped_eq, hm] at hmq'
              cases hmq'
            have hentry := h₁.inv.entries p tp hTp₁
            rw [hmemp] at hentry
            generalize he : s.mem tp p.2 = e at *
            have hD : s₁.dataFrames p = some (ppn e) := by
              unfold EntryOk at hentry
              rw [if_pos hpresent] at hentry
              rcases hentry with ⟨hD, -⟩ | ⟨-, hlow', -⟩
              · exact hD
              · exact absurd hlow' hlow
            obtain ⟨s', hrun, h', hagree', hview'⟩ := h₁.shareEntry hTp₁
              (hmemp ▸ he) hpresent (Nat.not_lt.mp hlow) hD hTq hDq hplace
            refine ⟨s', .ok true, ?_, h',
              hagree.trans hagree', ?_,
              fun _ => hnone⟩
            · rw [hrun]
              rfl
            · rw [if_pos rfl, hview', hviews p hp]

end Calls

end LinuxRs.Mm
