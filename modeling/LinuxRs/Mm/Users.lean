/-
Processes over shared frames: what every order of forks, faults, stores and
exits keeps (kernel/src/mm, and its callers in fork.rs, exec.rs, task/mod.rs
and fs/file/pipe.rs).

# The system

The frames, the memory spaces and the handles `kept` that the rest of the
kernel owns: pipe buffers, task pages, argument pages and pages that are
being read from a file. A step is one call that runs without a task switch;
reading a page in is three: a frame is taken, filled, and mapped.

Slot 0 is the idle task, which runs in the kernel's low memory; it faults
nowhere and stores nothing the model follows.

# The window

A task's space holds the pages of its own slot. The limit that `execve` sets
lets a program reach one page more, the first of the next slot. A fault on it
is a step like any other, with `self` for the task; what comes of it is that
the call fails, or that the kernel panics (`Op.Strays`). A store to it that
the processor lets through is not followed.
-/
import LinuxRs.Mm.Fork
import LinuxRs.Lib.Run

namespace LinuxRs.Mm

open Lib (Reachable run)
open Function (update update_self update_of_ne)

-- ======== the system

/-- The loop of `try_share_page` over the tasks that run the same file. -/
def Memory.shareFrom (s : Memory) (q : LinPage) :
    List Slot → Outcome Bool
  | [] => some (s, .ok false)
  | a :: as =>
    match s.tryShareLocalPage ((a, q.1.2), q.2) q with
    | none => none
    | some (s, .error e) => some (s, .error e)
    | some (s, .ok true) => some (s, .ok true)
    | some (s, .ok false) => s.shareFrom q as

/-- `try_share_page`; `to_local` gives a page of another slot no offset. -/
def Memory.trySharePage (s : Memory) (self : Slot) (q : LinPage)
    (tasks : List Slot) : Outcome Bool :=
  if q.1.1 = self then s.shareFrom q tasks else some (s, .ok false)

/-- The frames of a run. -/
def runFrames (f : Nat) : Nat → List Nat
  | 0 => []
  | n + 1 => (f + n) :: runFrames f n

/-- The state; `live` are the slots with a memory space. -/
structure Sys where
  memory : Memory
  kept : List Nat
  live : Slot → Bool

/-- What happens. -/
inductive Op
  /-- `frame::alloc` -/
  | take
  /-- `frame::alloc_contiguous` -/
  | takeRun (n : Nat)
  /-- The kernel writes to a frame it owns. -/
  | fill (f : Nat) (j : Fin 1024) (v : Word)
  /-- `Drop` of a `PhysFrame`, or of one frame of a `PhysFrameRange` -/
  | release (f : Nat)
  /-- `map_zero_page` -/
  | touch (self : Slot) (p : LinPage)
  /-- The end of `try_load_page`, or a page of `install_into`. -/
  | load (self : Slot) (p : LinPage) (f : Nat)
  /-- `try_share_page` -/
  | share (self : Slot) (q : LinPage) (tasks : List Slot)
  /-- `handle_wp_page`, or a page of `ensure_user_area_writable` -/
  | makeWritable (self : Slot) (p : LinPage)
  /-- A store of a program. -/
  | store (p : LinPage) (j : Fin 1024) (v : Word)
  /-- `sys_fork` -/
  | fork (parent child : Slot) (pdeCount : Nat)
  /-- The new memory space of `sys_execve`. -/
  | renew (slot : Slot)
  /-- `exit_process` -/
  | exit (slot : Slot)

/-- When a step can come: the caller's slot has a memory space, a frame that
is used is owned, the tasks of `try_share_page` run a file, a page that is to
be made writable is mapped, a store is let through, and `fork` has a free
slot. The segment of the idle task is 640 KB. -/
def Op.Enabled (s : Sys) : Op → Prop
  | .take => True
  | .takeRun _ => True
  | .fill f _ _ => f ∈ s.kept
  | .release f => f ∈ s.kept
  | .touch self _ => self ≠ task0 ∧ s.live self = true
  | .load self _ f => self ≠ task0 ∧ s.live self = true ∧ f ∈ s.kept
  | .share self _ tasks => self ≠ task0 ∧ s.live self = true ∧
      ∀ a ∈ tasks, a ≠ task0 ∧ a ≠ self
  | .makeWritable self p => self ≠ task0 ∧ s.live self = true ∧
      s.memory.mapped p = true
  | .store p _ _ => p.1.1 ≠ task0 ∧ s.live p.1.1 = true ∧
      s.memory.canStore p = true
  | .fork parent child pdeCount => s.live parent = true ∧ child ≠ task0 ∧
      s.live child = false ∧ (parent = task0 → pdeCount ≤ 1)
  | .renew slot => slot ≠ task0 ∧ s.live slot = true
  | .exit slot => slot ≠ task0 ∧ s.live slot = true

/-- One step; `none` is a panic. -/
def Sys.act (s : Sys) : Op → Option Sys
  | .take =>
    match s.memory.alloc with
    | none => some s
    | some (m, f) => some { s with memory := m, kept := f :: s.kept }
  | .takeRun n =>
    match s.memory.allocContiguous n with
    | none => some s
    | some (m, f) => some { s with
        memory := m
        kept := runFrames f n ++ s.kept }
  | .fill f j v => some { s with memory := s.memory.setWord f j v }
  | .release f => (s.memory.dealloc f).map fun m =>
      { s with memory := m, kept := s.kept.erase f }
  | .touch self p => (s.memory.mapPage self p none).map fun r =>
      { s with memory := r.1 }
  | .load self p f => (s.memory.mapPage self p (some f)).map fun r =>
      { s with memory := r.1, kept := s.kept.erase f }
  | .share self q tasks => (s.memory.trySharePage self q tasks).map fun r =>
      { s with memory := r.1 }
  | .makeWritable self p => (s.memory.ensurePageWritable self p).map fun r =>
      { s with memory := r.1 }
  | .store p j v => (s.memory.store p j v).map fun m =>
      { s with memory := m }
  | .fork parent child pdeCount =>
    (s.memory.cowCopy parent child pdeCount).map fun (m, r) =>
      { s with
        memory := m
        live := if r = .ok () then update s.live child true
          else s.live }
  | .renew slot => (s.memory.dropSpace slot).map fun m =>
      { s with memory := m }
  | .exit slot => (s.memory.dropSpace slot).map fun m =>
      { s with memory := m, live := update s.live slot false }

instance (s : Sys) : (op : Op) → Decidable (op.Enabled s)
  | .take => inferInstanceAs (Decidable True)
  | .takeRun _ => inferInstanceAs (Decidable True)
  | .fill _ _ _ => inferInstanceAs (Decidable (_ ∈ s.kept))
  | .release _ => inferInstanceAs (Decidable (_ ∈ s.kept))
  | .touch _ _ => inferInstanceAs (Decidable (_ ∧ _))
  | .load _ _ _ => inferInstanceAs (Decidable (_ ∧ _ ∧ _))
  | .share _ _ tasks => inferInstanceAs (Decidable (_ ∧ _ ∧ ∀ a ∈ tasks, _))
  | .makeWritable _ _ => inferInstanceAs (Decidable (_ ∧ _ ∧ _))
  | .store _ _ _ => inferInstanceAs (Decidable (_ ∧ _ ∧ _))
  | .fork _ _ _ => inferInstanceAs (Decidable (_ ∧ _ ∧ _ ∧ (_ → _)))
  | .renew _ => inferInstanceAs (Decidable (_ ∧ _))
  | .exit _ => inferInstanceAs (Decidable (_ ∧ _))

/-- A step that can come. -/
def Sys.step (s : Sys) (op : Op) : Option Sys :=
  if op.Enabled s then s.act op else none

/-- The fault of a task on a page of another slot at which the kernel panics:
`ensure_page_writable` or `set_pte` finds no entry. -/
def Op.Strays (s : Memory) : Op → Prop
  | .touch self p => p.1.1 ≠ self ∧ isPresent (s.dir p.1) = true ∧
      s.alloc ≠ none
  | .load self p _ => p.1.1 ≠ self ∧ isPresent (s.dir p.1) = true
  | .makeWritable self p => p.1.1 ≠ self
  | _ => False

/-- The machine after `head.s` and `frame::init`: the first 16 MB are mapped
to themselves for the idle task. -/
def Memory.boot (startMem endMem : Nat) (junk : Nat → Page) : Memory where
  memMap := fun f =>
    if startMem / 4096 ≤ f ∧ f < endMem / 4096 then 0 else 100
  mem := fun f =>
    if 1 ≤ f ∧ f ≤ 4 then fun j => newEntry ((f - 1) * 1024 + j.val) userRw
    else junk f
  dir := fun b =>
    if b.1 = task0 ∧ b.2.val < 4 then newEntry (b.2.val + 1) userRw else 0
  pageTables := fun _ => none
  dataFrames := fun _ => none

/-- Slot 0 alone has a memory space. -/
def Sys.boot (startMem endMem : Nat) (junk : Nat → Page) : Sys where
  memory := .boot startMem endMem junk
  kept := []
  live := fun slot => slot = task0

-- ======== what a step does to the pages

/-- What the users' pages show afterwards. -/
def Becomes (s' : Memory) (view : LinPage → Shown) : Prop :=
  ∀ q : LinPage, q.1.1 ≠ task0 → s'.view q = view q

/-- The page of the parent at a child's page. -/
def forkSource (parent : Slot) (q : LinPage) : LinPage :=
  ((parent, q.1.2), q.2)

/-- The call runs out of frames, or finds the page mapped. -/
def Fails {α : Type} (r : Outcome α) : Prop := ∃ m e, r = some (m, .error e)

/-- Mapping a page gives it the frame's words, or zeros; nothing changes when
the page is mapped already or the call fails. -/
def MapEffect (s s' : Memory) (self : Slot) (p : LinPage)
    (frame : Option Nat) : Prop :=
  (Becomes s' s.view ∧
      (s.view p ≠ none ∨ Fails (s.mapPage self p frame))) ∨
    s.view p = none ∧ Becomes s' (update s.view p
      (some (.inr (frame.elim (fun _ => 0) s.mem))))

/-- The steps on private memories: what the pages show after a step, from
what they showed. A call that fails changes nothing, nor does sharing when no
task has a page to share. -/
def Op.Effect (s s' : Memory) : Op → Prop
  | .touch self p => MapEffect s s' self p none
  | .load self p f => MapEffect s s' self p (some f)
  | .share self q tasks =>
    (Becomes s' s.view ∧
        ∀ m, s.trySharePage self q tasks ≠ some (m, .ok true)) ∨
      s.view q = none ∧ ∃ a ∈ tasks,
        Becomes s' (update s.view q (s.view (forkSource a q)))
  | .makeWritable self p =>
    (Becomes s' s.view ∧ Fails (s.ensurePageWritable self p)) ∨
      Becomes s' (update s.view p ((s.view p).map (owned s.mem)))
  | .store p j v => ∃ c : Page, s.view p = some (.inr c) ∧
      Becomes s' (update s.view p
        (some (.inr (update c j v))))
  | .fork parent child pdeCount =>
    (Becomes s' s.view ∧ Fails (s.cowCopy parent child pdeCount)) ∨
      Becomes s' fun q =>
        if q.1.1 = child ∧ q.1.2.val < pdeCount ∧
            Copyable (forkSource parent q) then
          s.view (forkSource parent q)
        else s.view q
  | .renew slot => Becomes s' fun q =>
      if q.1.1 = slot then none else s.view q
  | .exit slot => Becomes s' fun q =>
      if q.1.1 = slot then none else s.view q
  | _ => Becomes s' s.view

/-- Whose pages a step may change. -/
def Op.subject : Op → Option Slot
  | .touch self _ => some self
  | .load self _ _ => some self
  | .share self _ _ => some self
  | .makeWritable self _ => some self
  | .store p _ _ => some p.1.1
  | .fork _ child _ => some child
  | .renew slot => some slot
  | .exit slot => some slot
  | _ => none

section Steps

variable {boot : Memory} {s s' : Sys} {m m' : Memory} {K : List Nat}
  {p q : LinPage} {self : Slot} {frame : Option Nat} {f n : Nat} {op : Op}

-- ======== what the pages become

theorem becomes_same (h : Agree (fun _ => False) m m') :
    Becomes m' m.view := fun q hq => h.view q hq id

theorem becomes_update (h : Agree (· = p) m m') {x : Shown}
    (hp : m'.view p = x) : Becomes m' (update m.view p x) := by
  intro q hq
  by_cases hqp : q = p
  · rw [hqp, update_self, hp]
  · rw [update_of_ne hqp]
    exact h.view q hq hqp

theorem becomes_kept (h : Agree (· = p) m m') (hp : m'.view p = m.view p) :
    Becomes m' m.view := by
  intro q hq
  by_cases hqp : q = p
  · rw [hqp, hp]
  · exact h.view q hq hqp

-- ======== runs of frames

theorem Good.takeRun (h : Good boot K m)
    (hfree : ∀ d < n, unpagedPages ≤ f + d ∧
      f + d < unpagedPages + pagingPages ∧ m.memMap (f + d) = 0) :
    Good boot (runFrames f n ++ K) (m.takeRun f n) ∧
      Agree (fun _ => False) m (m.takeRun f n) ∧
      ∀ g, f + n ≤ g → (m.takeRun f n).memMap g = m.memMap g := by
  induction n with
  | zero => exact ⟨h, Agree.refl _ m, fun _ _ => rfl⟩
  | succ n ih =>
    obtain ⟨h₁, hagree, hsame⟩ := ih fun d hd => hfree d (by omega)
    obtain ⟨hlow, hhigh, hzero⟩ := hfree n (Nat.lt_succ_self n)
    have hzero' := (hsame (f + n) (Nat.le_refl _)).trans hzero
    have hf := h₁.inv.free_tracked hlow hhigh hzero'
    have hnot := h₁.inv.ledger.no_handle hzero'
    have h₂ : Good boot (runFrames f (n + 1) ++ K) (m.takeRun f (n + 1)) :=
      h₁.of (h₁.inv.take hf hzero' _) rfl rfl
    refine ⟨h₂, hagree.trans (h₁.agree h₂ rfl fun q _ =>
      h₁.inv.tableView_setMem hnot.2.1 (hnot.2.2 q) _), fun g hg => ?_⟩
    have hne : g ≠ f + n := by omega
    exact (update_of_ne hne _ _).trans (hsame g (by omega))

theorem allocContiguous_spec (h : m.allocContiguous n = some (m', f)) :
    m' = m.takeRun f n ∧ ∀ d < n, unpagedPages ≤ f + d ∧
      f + d < unpagedPages + pagingPages ∧ m.memMap (f + d) = 0 := by
  unfold Memory.allocContiguous at h
  split at h
  next => cases h
  next =>
    obtain ⟨i, hi, hs⟩ := Option.map_eq_some_iff.mp h
    obtain ⟨hlt, hzero⟩ := rposition_some hi
    injection hs with hs hf
    subst hf
    refine ⟨hs.symm, fun d hd => ⟨by omega, by omega, ?_⟩⟩
    exact beq_iff_eq.mp (List.all_eq_true.mp hzero d (List.mem_range.mpr hd))

theorem Good.fill (h : Good boot K m) (hf : f ∈ K) (j : Fin 1024)
    (v : Word) : Good boot K (m.setWord f j v) ∧
      Agree (fun _ => False) m (m.setWord f j v) := by
  have hT : ∀ b, m.pageTables b ≠ some f := fun b hb =>
    h.inv.ledger.not_loose_of_single hb hf
  have hD : ∀ p, m.dataFrames p ≠ some f := fun p hp =>
    h.inv.ledger.not_loose_of_shared hp hf
  have hinv := h.inv.setMem (h.inv.ledger.loose_tracked f hf).1 hT
    (update (m.mem f) j v)
  have hgood : Good boot K (m.setWord f j v) := h.of hinv rfl rfl
  exact ⟨hgood, h.agree hgood rfl fun q _ =>
    h.inv.tableView_setMem hT (hD q) _⟩

-- ======== the calls on processes

/-- A page of another slot is not mapped: the call fails unless it panics. -/
theorem Good.mapPage_outside (h : Good boot (frame.toList ++ K) m)
    (hne : p.1.1 ≠ self)
    (hin : isPresent (m.dir p.1) = true → frame = none ∧ m.alloc = none) :
    ∃ m' e, m.mapPage self p frame = some (m', .error e) ∧ Good boot K m' ∧
      Agree (fun _ => False) m m' := by
  have hpte : ∀ m : Memory, m.pte self p = none := fun _ => if_neg hne
  unfold Memory.mapPage Memory.ensurePageTable
  by_cases hdir : isPresent (m.dir p.1) = true
  · obtain ⟨rfl, halloc⟩ := hin hdir
    rw [if_pos hdir]
    simp only [hpte, Option.any_none, Bool.false_eq_true, if_false, halloc]
    exact ⟨m, .nomem, rfl, h, Agree.refl _ m⟩
  · rw [if_neg hdir, if_pos hne]
    obtain ⟨m', hrun, h', hagree, -⟩ := h.deallocAll
    refine ⟨m', .nomem, ?_, h', hagree⟩
    show (m.deallocAll _).map _ = _
    rw [hrun]
    rfl

theorem mapPage_strays (hne : p.1.1 ≠ self)
    (hdir : isPresent (m.dir p.1) = true)
    (hframe : frame = none → m.alloc ≠ none) :
    m.mapPage self p frame = none := by
  have hpte : ∀ m : Memory, m.pte self p = none := fun _ => if_neg hne
  have hinstall : ∀ (m : Memory) f, m.install self p f = none := fun m f =>
    congrArg (fun o => (Option.bind o _).map _) (if_neg hne)
  unfold Memory.mapPage Memory.ensurePageTable
  rw [if_pos hdir]
  simp only [hpte, hinstall, Option.any_none, Bool.false_eq_true, if_false]
  cases frame with
  | some f => rfl
  | none =>
    cases halloc : m.alloc with
    | none => exact absurd halloc (hframe rfl)
    | some r => rfl

/-- The first task that has the page shares it. -/
theorem Good.shareFrom {tasks : List Slot} (h : Good boot K m)
    (hq : q.1.1 ≠ task0) (htasks : ∀ a ∈ tasks, a ≠ task0 ∧ a ≠ q.1.1) :
    ∃ m' r, m.shareFrom q tasks = some (m', r) ∧ Good boot K m' ∧
      Agree (· = q) m m' ∧ (m'.view q = m.view q ∧ r ≠ .ok true ∨
        m.view q = none ∧
          ∃ a ∈ tasks, m'.view q = m.view (forkSource a q)) := by
  induction tasks generalizing m with
  | nil => exact ⟨m, .ok false, rfl, h, Agree.refl _ m, .inl ⟨rfl, nofun⟩⟩
  | cons a as ih =>
    obtain ⟨ha, haq⟩ := htasks a List.mem_cons_self
    obtain ⟨m₁, r, hrun, h₁, hagree, hview, hnone⟩ :=
      h.tryShareLocalPage (p := forkSource a q) ha hq rfl
    unfold Memory.shareFrom
    rw [show m.tryShareLocalPage ((a, q.1.2), q.2) q = some (m₁, r) from hrun]
    match r, hview, hnone with
    | .error e, hview, _ =>
      exact ⟨m₁, .error e, rfl, h₁, hagree,
        .inl ⟨hview.trans (if_neg nofun), nofun⟩⟩
    | .ok true, hview, hnone =>
      exact ⟨m₁, .ok true, rfl, h₁, hagree, .inr ⟨hnone rfl, a,
        List.mem_cons_self, hview.trans (if_pos rfl)⟩⟩
    | .ok false, hview, _ =>
      have hsame := hview.trans (if_neg nofun)
      obtain ⟨m', r', hrun', h', hagree', hview'⟩ :=
        ih h₁ fun b hb => htasks b (.tail _ hb)
      refine ⟨m', r', hrun', h', hagree.trans hagree', ?_⟩
      rcases hview' with ⟨hview', hr⟩ | ⟨hnone', b, hb, hview'⟩
      · exact .inl ⟨hview'.trans hsame, hr⟩
      · refine .inr ⟨hsame.symm.trans hnone', b, .tail _ hb, ?_⟩
        obtain ⟨hb0, hbq⟩ := htasks b (.tail _ hb)
        exact hview'.trans (hagree.view (forkSource b q) hb0
          fun heq => hbq (congrArg (fun p : LinPage => p.1.1) heq))

theorem mem_take_finRange {i : Fin 16} {n : Nat} :
    i ∈ (List.finRange 16).take n ↔ i.val < n := by
  rw [List.mem_take_iff_getElem]
  constructor
  · rintro ⟨k, hk, rfl⟩
    rw [List.getElem_finRange]
    exact (Nat.lt_min.mp hk).1
  · intro hi
    refine ⟨i.val, Nat.lt_min.mpr ⟨hi, ?_⟩, ?_⟩
    · rw [List.length_finRange]
      exact i.isLt
    · rw [List.getElem_finRange]
      rfl

/-- A fork shares the whole space, or gives back what it took. -/
theorem Good.cowCopy {parent child : Slot} (h : Good boot K m)
    (hk : KernelTable boot (task0, 0)) (hchild : child ≠ task0)
    (hne : parent ≠ child) (hn : parent = task0 → n ≤ 1)
    (hfree : ∀ i, m.pageTables (child, i) = none) :
    ∃ m' r, m.cowCopy parent child n = some (m', r) ∧ Good boot K m' ∧
      Agree (·.1.1 = child) m m' ∧
      (r ≠ .ok () → ∀ i, m'.pageTables (child, i) = none) ∧
      if r = .ok () then Becomes m' fun q =>
        if q.1.1 = child ∧ q.1.2.val < n ∧ Copyable (forkSource parent q) then
          m.view (forkSource parent q)
        else m.view q
      else Becomes m' m.view := by
  obtain ⟨m', r, hrun, h', hagree, hok, herr⟩ := h.copyBlocks
    ((List.take_sublist n (List.finRange 16)).nodup (List.nodup_finRange 16))
    hchild
    (fun i _ => hfree i) hne fun hp i hi => by
      have hlt := mem_take_finRange.mp hi
      have hle := hn hp
      obtain rfl : i = 0 := Fin.ext (by
        show i.val = 0
        omega)
      exact hp ▸ hk
  have hbare : ∀ {m : Memory}, Good boot K m →
      (∀ i, m.pageTables (child, i) = none) →
      ∀ q : LinPage, q.1.1 = child → m.view q = none := by
    intro m hm htables q hq
    rw [hm.view (hq ▸ hchild)]
    exact congrArg (fun o => Option.bind o _)
      (hq ▸ htables q.1.2)
  refine ⟨m', r, hrun, h', hagree, herr, ?_⟩
  split
  next hr =>
    obtain ⟨hdone, hrest⟩ := hok hr
    intro q hq
    by_cases hqc : q.1.1 = child
    · obtain ⟨⟨a, i⟩, j⟩ := q
      obtain rfl : a = child := hqc
      by_cases hi : i.val < n
      · refine (hdone i (mem_take_finRange.mpr hi) j).trans ?_
        by_cases hcopy : Copyable (forkSource parent ((a, i), j))
        · exact (if_pos hcopy).trans (if_pos ⟨rfl, hi, hcopy⟩).symm
        · refine (if_neg hcopy).trans ?_
          dsimp only
          rw [if_neg fun hc => hcopy hc.2.2]
          exact (hbare h hfree ((a, i), j) rfl).symm
      · dsimp only
        rw [if_neg fun hc => hi hc.2.1]
        exact hrest i (fun hmem => hi (mem_take_finRange.mp hmem)) j
    · dsimp only
      rw [if_neg fun hc => hqc hc.1]
      exact hagree.view q hq hqc
  next hr =>
    intro q hq
    by_cases hqc : q.1.1 = child
    · rw [hbare h' (herr hr) q hqc, hbare h hfree q hqc]
    · exact hagree.view q hq hqc

-- ======== the invariant of the system

/-- The invariant of the system. -/
structure SysOk (boot : Memory) (s : Sys) : Prop where
  good : Good boot s.kept s.memory
  dead : ∀ slot i, slot ≠ task0 → s.live slot = false →
    s.memory.pageTables (slot, i) = none

theorem SysOk.keep (h : SysOk boot s) {slot : Slot}
    (hlive : s.live slot = true) (hgood : Good boot K m)
    (hagree : Agree (·.1.1 = slot) s.memory m) :
    SysOk boot { s with memory := m, kept := K } := by
  refine ⟨hgood, fun a i ha hdead => ?_⟩
  have hne : a ≠ slot := by
    rintro rfl
    rw [hlive] at hdead
    cases hdead
  exact (hagree.tables (a, i) fun _ => hne).trans (h.dead a i ha hdead)

theorem SysOk.still (h : SysOk boot s) (hgood : Good boot K m)
    (hagree : Agree (fun _ => False) s.memory m) :
    SysOk boot { s with memory := m, kept := K } :=
  ⟨hgood, fun a i ha hdead =>
    (hagree.tables (a, i) fun _ => id).trans (h.dead a i ha hdead)⟩

theorem Agree.page (h : Agree (· = p) m m') : Agree (·.1.1 = p.1.1) m m' :=
  h.weaken fun _ hq => hq ▸ rfl

/-- The step comes, keeps the invariant and the pages of the others, and has
its effect. -/
def Sound (boot : Memory) (s : Sys) (op : Op) : Prop :=
  ∃ s', s.act op = some s' ∧ SysOk boot s' ∧
    Agree (fun q => op.subject = some q.1.1) s.memory s'.memory ∧
    op.Effect s.memory s'.memory

/-- A step on frames of the kernel changes no page. -/
theorem SysOk.quiet (h : SysOk boot s) (hgood : Good boot K m)
    (hagree : Agree (fun _ => False) s.memory m)
    (hact : s.act op = some { s with memory := m, kept := K })
    (heffect : op.Effect s.memory m = Becomes m s.memory.view) :
    Sound boot s op :=
  ⟨_, hact, h.still hgood hagree, hagree.weaken fun _ hf => hf.elim,
    heffect ▸ becomes_same hagree⟩

theorem SysOk.act_take (h : SysOk boot s) : Sound boot s .take := by
  cases halloc : s.memory.alloc with
  | none =>
    refine h.quiet h.good (Agree.refl _ _) ?_ rfl
    dsimp only [Sys.act]
    rw [halloc]
  | some r =>
    obtain ⟨m, f⟩ := r
    obtain ⟨hgood, -, -, hagree, -⟩ := h.good.alloc halloc
    refine h.quiet hgood hagree ?_ rfl
    dsimp only [Sys.act]
    rw [halloc]

theorem SysOk.act_takeRun (h : SysOk boot s) (n : Nat) :
    Sound boot s (.takeRun n) := by
  cases halloc : s.memory.allocContiguous n with
  | none =>
    refine h.quiet h.good (Agree.refl _ _) ?_ rfl
    dsimp only [Sys.act]
    rw [halloc]
  | some r =>
    obtain ⟨m, f⟩ := r
    obtain ⟨rfl, hfree⟩ := allocContiguous_spec halloc
    obtain ⟨hgood, hagree, -⟩ := h.good.takeRun hfree
    refine h.quiet hgood hagree ?_ rfl
    dsimp only [Sys.act]
    rw [halloc]

theorem SysOk.owns (h : SysOk boot s) (hf : f ∈ s.kept) :
    Good boot (f :: s.kept.erase f) s.memory :=
  h.good.perm (List.perm_cons_erase hf)

theorem SysOk.act_release (h : SysOk boot s) (hf : f ∈ s.kept) :
    Sound boot s (.release f) := by
  obtain ⟨hrun, hinv⟩ := (h.owns hf).inv.giveBack
  have hgood := (h.owns hf).of hinv rfl rfl
  refine h.quiet hgood (h.good.agree hgood rfl fun q _ => rfl) ?_ rfl
  dsimp only [Sys.act]
  rw [hrun]
  rfl

/-- `touch` maps a new frame and `load` one that the kernel owns. -/
theorem SysOk.mapPage (h : SysOk boot s)
    (hgood : Good boot (frame.toList ++ K) s.memory) (hself : self ≠ task0)
    (hlive : s.live self = true)
    (hin : p.1.1 ≠ self → isPresent (s.memory.dir p.1) = true →
      frame = none ∧ s.memory.alloc = none) :
    ∃ r, s.memory.mapPage self p frame = some r ∧
      SysOk boot { s with memory := r.1, kept := K } ∧
      Agree (·.1.1 = self) s.memory r.1 ∧
      MapEffect s.memory r.1 self p frame := by
  by_cases hp : p.1.1 = self
  · subst hp
    obtain ⟨m, r, hrun, hgood, hagree, hview⟩ := hgood.mapPage hself
    refine ⟨_, hrun, h.keep hlive hgood hagree.page, hagree.page, ?_⟩
    split at hview
    next hmap => exact .inr ⟨hmap.2, becomes_update hagree hview⟩
    next hmap =>
      refine .inl ⟨becomes_kept hagree hview, ?_⟩
      cases r with
      | error e => exact .inr ⟨m, e, hrun⟩
      | ok u => exact .inl fun hnone => hmap ⟨rfl, hnone⟩
  · obtain ⟨m, e, hrun, hgood, hagree⟩ := hgood.mapPage_outside hp (hin hp)
    have hnone : Agree (·.1.1 = self) s.memory m :=
      hagree.weaken fun _ hf => hf.elim
    exact ⟨_, hrun, h.keep hlive hgood hnone, hnone,
      .inl ⟨becomes_same hagree, .inr ⟨m, e, hrun⟩⟩⟩

theorem SysOk.act_share {tasks : List Slot} (h : SysOk boot s)
    (hop : (Op.share self q tasks).Enabled s) :
    Sound boot s (.share self q tasks) := by
  obtain ⟨hself, hlive, htasks⟩ := hop
  by_cases hq : q.1.1 = self
  · subst hq
    have hlocal : s.memory.trySharePage q.1.1 q tasks
        = s.memory.shareFrom q tasks := if_pos rfl
    obtain ⟨m, r, hrun, hgood, hagree, hview⟩ :=
      h.good.shareFrom hself htasks
    refine ⟨_, ?_, h.keep hlive hgood hagree.page,
      hagree.weaken fun q hq => hq ▸ rfl, ?_⟩
    · dsimp only [Sys.act]
      rw [hlocal, hrun]
      rfl
    · rcases hview with ⟨hview, hr⟩ | ⟨hnone, a, ha, hview⟩
      · refine .inl ⟨becomes_kept hagree hview, fun m' hm' => hr ?_⟩
        rw [hlocal, hrun] at hm'
        exact congrArg Prod.snd (Option.some.inj hm')
      · exact .inr ⟨hnone, a, ha, becomes_update hagree hview⟩
  · have hlocal : s.memory.trySharePage self q tasks
        = some (s.memory, .ok false) := if_neg hq
    refine ⟨s, ?_, h, Agree.refl _ _, .inl ⟨fun _ _ => rfl, fun m hm => ?_⟩⟩
    · dsimp only [Sys.act]
      rw [hlocal]
      rfl
    · rw [hlocal] at hm
      cases hm

theorem SysOk.act_makeWritable (h : SysOk boot s)
    (hop : (Op.makeWritable self p).Enabled s) (hp : p.1.1 = self) :
    Sound boot s (.makeWritable self p) := by
  subst hp
  obtain ⟨hself, hlive, hm⟩ := hop
  obtain ⟨m, r, hrun, hgood, hagree, hok, herr⟩ :=
    h.good.ensurePageWritable hself hm
  refine ⟨_, ?_, h.keep hlive hgood hagree.page,
    hagree.weaken fun q hq => hq ▸ rfl, ?_⟩
  · dsimp only [Sys.act]
    rw [hrun]
    rfl
  · cases r with
    | ok u => exact .inr (becomes_update hagree (hok rfl).2)
    | error e =>
      obtain ⟨rfl, -⟩ := herr nofun
      exact .inl ⟨fun _ _ => rfl, _, e, hrun⟩

theorem SysOk.act_store {j : Fin 1024} {v : Word} (h : SysOk boot s)
    (hop : (Op.store p j v).Enabled s) : Sound boot s (.store p j v) := by
  obtain ⟨hp, hlive, hcan⟩ := hop
  obtain ⟨m, hrun⟩ := store_isSome h.good hp hcan j v
  obtain ⟨hgood, hagree, c, hold, hnew⟩ := h.good.store hp hrun
  refine ⟨_, ?_, h.keep hlive hgood hagree.page,
    hagree.weaken fun q hq => hq ▸ rfl, c, hold, becomes_update hagree hnew⟩
  dsimp only [Sys.act]
  rw [hrun]
  rfl

/-- A fork that fails leaves the slot of the child without tables. -/
theorem SysOk.act_fork {parent child : Slot} (h : SysOk boot s)
    (hk : KernelTable boot (task0, 0))
    (hop : (Op.fork parent child n).Enabled s) :
    Sound boot s (.fork parent child n) := by
  obtain ⟨hparent, hchild, hlive, hn⟩ := hop
  have hne : parent ≠ child := by
    rintro rfl
    rw [hparent] at hlive
    cases hlive
  obtain ⟨m, r, hrun, hgood, hagree, herr, heffect⟩ :=
    h.good.cowCopy hk hchild hne hn fun i => h.dead child i hchild hlive
  have hact : s.act (.fork parent child n) = some { s with
      memory := m
      live := if r = .ok () then update s.live child true
        else s.live } := by
    dsimp only [Sys.act]
    rw [hrun]
    rfl
  refine ⟨_, hact, ⟨hgood, fun a i ha hdead => ?_⟩,
    hagree.weaken fun q hq => congrArg some hq.symm, ?_⟩
  · dsimp only at hdead
    by_cases hac : a = child
    · subst hac
      refine herr (fun hr => ?_) i
      rw [if_pos hr, update_self] at hdead
      cases hdead
    · refine (hagree.tables (a, i) fun _ => hac).trans (h.dead a i ha ?_)
      split at hdead
      next => rwa [update_of_ne hac] at hdead
      next => exact hdead
  · cases r with
    | ok u => exact .inr heffect
    | error e => exact .inl ⟨heffect, m, e, hrun⟩

theorem SysOk.act_renew {slot : Slot} (h : SysOk boot s)
    (hop : (Op.renew slot).Enabled s) : Sound boot s (.renew slot) := by
  obtain ⟨hslot, hlive⟩ := hop
  obtain ⟨m, hrun, hgood, hagree, hnone, -⟩ := h.good.dropSpace hslot
  refine ⟨_, ?_, h.keep hlive hgood hagree,
    hagree.weaken fun q hq => congrArg some hq.symm, fun q hq => ?_⟩
  · dsimp only [Sys.act]
    rw [hrun]
    rfl
  · dsimp only
    split
    next hqs => exact hnone q hqs
    next hqs => exact hagree.view q hq hqs

theorem SysOk.act_exit {slot : Slot} (h : SysOk boot s)
    (hop : (Op.exit slot).Enabled s) : Sound boot s (.exit slot) := by
  obtain ⟨hslot, hlive⟩ := hop
  obtain ⟨m, hrun, hgood, hagree, hnone, htables⟩ := h.good.dropSpace hslot
  have hact : s.act (.exit slot) = some { s with
      memory := m
      live := update s.live slot false } := by
    dsimp only [Sys.act]
    rw [hrun]
    rfl
  refine ⟨_, hact, ⟨hgood, fun a i ha hdead => ?_⟩,
    hagree.weaken fun q hq => congrArg some hq.symm, fun q hq => ?_⟩
  · dsimp only at hdead
    by_cases has : a = slot
    · exact has ▸ htables i
    · refine (hagree.tables (a, i) fun _ => has).trans (h.dead a i ha ?_)
      rwa [update_of_ne has] at hdead
  · dsimp only
    split
    next hqs => exact hnone q hqs
    next hqs => exact hagree.view q hq hqs

/-- Every step that can come and is no stray fault is sound. -/
theorem SysOk.act (h : SysOk boot s) (hk : KernelTable boot (task0, 0))
    (hop : op.Enabled s) (hin : ¬ op.Strays s.memory) : Sound boot s op := by
  cases op with
  | take => exact h.act_take
  | takeRun n => exact h.act_takeRun n
  | fill f j v =>
    obtain ⟨hgood, hagree⟩ := h.good.fill hop j v
    exact h.quiet hgood hagree rfl rfl
  | release f => exact h.act_release hop
  | touch self p =>
    obtain ⟨r, hrun, hok, hagree, heffect⟩ :=
      @SysOk.mapPage _ _ _ p self none h h.good hop.1 hop.2
        fun hne hdir => ⟨rfl, by_contra fun ha => hin ⟨hne, hdir, ha⟩⟩
    refine ⟨_, ?_, hok, hagree.weaken fun q hq => congrArg some hq.symm,
      heffect⟩
    dsimp only [Sys.act]
    rw [hrun]
    rfl
  | load self p f =>
    obtain ⟨hself, hlive, hf⟩ := hop
    obtain ⟨r, hrun, hok, hagree, heffect⟩ :=
      @SysOk.mapPage _ _ _ p self (some f) h (h.owns hf) hself hlive
        fun hne hdir => absurd ⟨hne, hdir⟩ hin
    refine ⟨_, ?_, hok, hagree.weaken fun q hq => congrArg some hq.symm,
      heffect⟩
    dsimp only [Sys.act]
    rw [hrun]
    rfl
  | share self q tasks => exact h.act_share hop
  | makeWritable self p => exact h.act_makeWritable hop (not_not.mp hin)
  | store p j v => exact h.act_store hop
  | fork parent child n => exact h.act_fork hk hop
  | renew slot => exact h.act_renew hop
  | exit slot => exact h.act_exit hop

/-- A stray fault panics. -/
theorem act_strays (h : op.Strays s.memory) : s.act op = none := by
  cases op with
  | touch self p =>
    obtain ⟨hne, hdir, halloc⟩ := h
    exact congrArg (Option.map _) (mapPage_strays hne hdir fun _ => halloc)
  | load self p f =>
    have hnone : s.memory.mapPage self p (some f) = none :=
      mapPage_strays h.1 h.2 nofun
    exact congrArg (Option.map _) hnone
  | makeWritable self p =>
    have hpte : s.memory.pte self p = none := if_neg h
    dsimp only [Sys.act]
    unfold Memory.ensurePageWritable
    rw [hpte]
    rfl
  | _ => exact h.elim

end Steps

end LinuxRs.Mm
