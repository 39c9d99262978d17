/-
The index and the replacement list of the buffer cache, over every
interleaving of the tasks that use it (kernel/src/fs/buffer.rs).

# The argument

Counts play no part here: `try_rebind_buffer` looks the new key up under
the same lock that changes the index, so the index stays right even when
the victim was claimed meanwhile. The list needs one more fact, that a
task only ever rebinds a slot it found in the list (`Pc.victim`): then
`move_to_back` puts back what it took out.
-/
import Mathlib.Data.List.Perm.Basic
import Mathlib.Data.List.Range
import LinuxRs.Fs.BufferPins

namespace LinuxRs.Fs

open LinuxRs.Lib
open LinuxRs.Driver (BufferKey BlockRequestType)

variable {T S : Type}

-- ======== the region

def lowMem : Nat := 0x200000

/-- The slots `BufferManager::init` makes, named by the addresses of
their blocks. -/
def scanBuffers (bufferMemoryEnd : BitVec 32) : List Nat :=
  let regionStart := lowMem
  let clampedEnd := max bufferMemoryEnd.toNat lowMem
  let regionEnd := clampedEnd / 1024 * 1024
  let bufferCount := (regionEnd - regionStart) / 1024
  (List.range bufferCount).map fun index => regionStart + index * 1024

theorem nodup_scanBuffers (bufferMemoryEnd : BitVec 32) :
    (scanBuffers bufferMemoryEnd).Nodup := by
  refine List.Nodup.map ?_ List.nodup_range
  intro i j hij
  simp only [Nat.add_left_cancel_iff] at hij
  omega

-- ======== the property

/-- Index and keys are the same relation, no key is carried twice, and
the list holds every slot once and nothing else. -/
structure BufferManager.Consistent (slots : List S) [DecidableEq S]
    (m : BufferManager S) : Prop where
  index : ∀ key x, m.bufferIndex key = some x ↔ (m.slot x).key = some key
  unique : ∀ x y key, (m.slot x).key = some key →
    (m.slot y).key = some key → x = y
  once : ∀ x ∈ slots, m.buffers.count x = 1
  only : ∀ x ∈ m.buffers, x ∈ slots

/-- The slot a task is about to rebind, now or after its write-back. -/
def Pc.victim : Pc S → Option S
  | .victimWait _ _ slot => some slot
  | .rebind _ _ slot => some slot
  | .acquireIo _ slot (.victim _ _) => some slot
  | .waitRequest _ slot (.victim _ _) => some slot
  | .waitIo slot (.victim _ _) => some slot
  | _ => none

/-- The invariant: the index is right, the list is the slots in some
order, and victims come from the list. -/
structure PinSys.Listed (slots : List S) (s : PinSys T S) : Prop where
  bound : s.manager.Bound
  perm : s.manager.buffers.Perm slots
  victim : ∀ t x, (s.pc t).victim = some x → x ∈ slots

/-- The same keys and the same index. -/
structure SameIndex (m m' : BufferManager S) : Prop where
  index : m'.bufferIndex = m.bufferIndex
  buffers : m'.buffers = m.buffers
  key : ∀ x, (m'.slot x).key = (m.slot x).key

theorem SameIndex.refl (m : BufferManager S) : SameIndex m m :=
  ⟨rfl, rfl, fun _ => rfl⟩

theorem SameIndex.trans {m m' m'' : BufferManager S} (h : SameIndex m m')
    (h' : SameIndex m' m'') : SameIndex m m'' :=
  ⟨h'.index.trans h.index, h'.buffers.trans h.buffers,
    fun x => (h'.key x).trans (h.key x)⟩

section
variable [DecidableEq S]

theorem SameIndex.onSlot (m : BufferManager S) (x : S)
    {f : BufferMeta → BufferMeta} (hf : ∀ b, (f b).key = b.key) :
    SameIndex m (m.onSlot x f) := by
  refine ⟨rfl, rfl, fun y => ?_⟩
  rw [BufferManager.onSlot_slot]
  split
  next hy => rw [hf, hy]
  next => rfl

theorem SameIndex.incRef (m : BufferManager S) (x : S) :
    SameIndex m (m.incRef x) :=
  .onSlot m x fun _ => rfl

theorem SameIndex.setDirty (m : BufferManager S) (x : S) (dirty : Bool) :
    SameIndex m (m.setDirty x dirty) :=
  .onSlot m x fun _ => rfl

theorem SameIndex.setUpToDate (m : BufferManager S) (x : S)
    (upToDate : Bool) : SameIndex m (m.setUpToDate x upToDate) :=
  .onSlot m x fun _ => rfl

omit [DecidableEq S] in
theorem BufferManager.mem_of_scanReclaim (m : BufferManager S) :
    ∀ (l : List S) (best : Option (S × Nat)) (x : S),
      m.scanReclaim l best = some x → x ∈ l ∨ best.map Prod.fst = some x := by
  intro l
  induction l with
  | nil => exact fun best x h => .inr h
  | cons y rest ih =>
    intro best x h
    simp only [scanReclaim] at h
    split at h
    · split at h
      · injection h with h
        exact .inl (h ▸ List.mem_cons_self)
      · rcases ih _ x h with hmem | hbest
        · exact .inl (List.mem_cons_of_mem y hmem)
        · simp only [Option.map_some, Option.some.injEq] at hbest
          exact .inl (hbest ▸ List.mem_cons_self)
    · rcases ih _ x h with hmem | hbest
      · exact .inl (List.mem_cons_of_mem y hmem)
      · exact .inr hbest

omit [DecidableEq S] in
theorem BufferManager.mem_of_findReclaimCandidate {m : BufferManager S}
    {x : S} (h : m.findReclaimCandidate = some x) : x ∈ m.buffers := by
  rcases m.mem_of_scanReclaim m.buffers none x h with hmem | hbest
  · exact hmem
  · cases hbest

end

-- ======== the steps

theorem PinSys.Listed.quiet {slots : List S} {s s' : PinSys T S}
    (h : s.Listed slots) (hm : SameIndex s.manager s'.manager)
    (hvictim : ∀ t x, (s'.pc t).victim = some x → x ∈ slots) :
    s'.Listed slots where
  bound := h.bound.congr hm.index hm.key
  perm := by rw [hm.buffers]; exact h.perm
  victim := hvictim

variable [DecidableEq T]

theorem PinSys.Listed.victims {slots : List S} {s s' : PinSys T S}
    (h : s.Listed slots) {t : T} {p : Pc S}
    (hpc : s'.pc = Function.update s.pc t p)
    (hp : ∀ x, p.victim = some x → x ∈ slots) :
    ∀ u x, (s'.pc u).victim = some x → x ∈ slots := by
  intro u x hu
  rw [hpc] at hu
  by_cases hut : u = t
  · rw [hut, Function.update_self] at hu
    exact hp x hu
  · rw [Function.update_of_ne hut] at hu
    exact h.victim u x hu

theorem PinSys.Listed.move {slots : List S} {s s' : PinSys T S}
    (h : s.Listed slots) {t : T} {p : Pc S}
    (hm : SameIndex s.manager s'.manager)
    (hpc : s'.pc = Function.update s.pc t p)
    (hp : ∀ x, p.victim = some x → x ∈ slots) : s'.Listed slots :=
  h.quiet hm (h.victims hpc hp)

theorem PinSys.Listed.leave {slots : List S} {s s' : PinSys T S}
    (h : s.Listed slots) {t : T} {p : Pc S}
    (hm : SameIndex s.manager s'.manager)
    (hpc : s'.pc = Function.update s.pc t p) (hp : p.victim = none) :
    s'.Listed slots := by
  refine h.move hm hpc ?_
  intro x hx
  rw [hp] at hx
  cases hx

theorem PinSys.Listed.carry {slots : List S} {s s' : PinSys T S}
    (h : s.Listed slots) {t : T} {p : Pc S}
    (hm : SameIndex s.manager s'.manager)
    (hpc : s'.pc = Function.update s.pc t p)
    (hp : p.victim = (s.pc t).victim) : s'.Listed slots := by
  refine h.move hm hpc ?_
  intro x hx
  rw [hp] at hx
  exact h.victim t x hx

theorem PinSys.Listed.submit {slots : List S} {s : PinSys T S}
    (h : s.Listed slots) (registered : Nat → Bool) {t : T}
    (ty : BlockRequestType) (slot : S) (k : Cont S)
    (hk : ∀ x, (Pc.waitIo slot k).victim = some x → x ∈ slots) :
    (s.submit registered t ty slot k).Listed slots := by
  have hk' : ∀ x, (Pc.acquireIo ty slot k).victim = some x → x ∈ slots := by
    cases k <;> exact hk
  rcases s.submit_eq registered t ty slot k with heq | heq
  · rw [heq]
    exact h.move (.refl _) rfl hk'
  · rw [heq]
    exact h.move (.refl _) rfl hk

theorem PinSys.Listed.acquired {slots : List S} {s : PinSys T S}
    (h : s.Listed slots) (registered : Nat → Bool) {t : T} (op : BufferOp)
    (key : BufferKey) (slot : S) :
    (s.acquired registered t op key slot).Listed slots := by
  cases op with
  | get => exact h.leave (.refl _) rfl rfl
  | read =>
    unfold PinSys.acquired
    dsimp only
    split
    · exact h.leave (.refl _) rfl rfl
    · exact h.submit registered .read slot (.read key) fun x hx => by
        cases hx

theorem PinSys.Listed.continue {slots : List S} {s : PinSys T S}
    (h : s.Listed slots) (registered : Nat → Bool) {t : T} {slot : S}
    {k : Cont S} (hpc : s.pc t = .waitIo slot k) :
    (s.continue registered t slot k).Listed slots := by
  cases k with
  | victim op key => exact h.carry (.refl _) rfl (by rw [hpc]; rfl)
  | read key =>
    simp only [PinSys.continue]
    split
    · exact h.leave (.refl _) rfl rfl
    · exact h.leave (.refl _) rfl rfl
  | sync rest =>
    cases rest with
    | nil => exact h.leave (.refl _) rfl rfl
    | cons next rest =>
      exact h.submit registered .write next (.sync rest) fun x hx => by
        cases hx

variable [DecidableEq S]

theorem PinSys.Listed.decRef {slots : List S} {s : PinSys T S}
    (h : s.Listed slots) (slot : S) {t : T} {p : Pc S}
    (hp : p.victim = none) : ((s.decRef slot).goto t p).Listed slots := by
  by_cases hzero : (s.manager.slot slot).refCount = 0#16
  · have hdec : s.decRef slot = { s with panicked := true } := by
      simp only [PinSys.decRef, BufferManager.decRef, if_pos hzero]
    rw [hdec]
    exact h.leave (.refl _) rfl hp
  · have hne : (s.manager.slot slot).refCount ≠ 0#16 := hzero
    obtain ⟨m, hm, hrec, -⟩ := BufferManager.decRef_spec hne
    have hdec : s.decRef slot = { s with manager := m } := by
      simp only [PinSys.decRef, hm]
    rw [hdec]
    exact h.leave ⟨hrec.index, hrec.buffers, hrec.key⟩ rfl hp

omit [DecidableEq T] in
theorem PinSys.Listed.rebind {slots : List S} {s : PinSys T S}
    (h : s.Listed slots) {key : BufferKey} {slot : S} (hslot : slot ∈ slots)
    {m : BufferManager S} (hm : s.manager.tryRebindBuffer key slot = some m) :
    ({ s with manager := m } : PinSys T S).Listed slots := by
  obtain ⟨-, hbound, -, -, -, hbuffers⟩ :=
    BufferManager.tryRebindBuffer_spec h.bound hm
  refine ⟨hbound, ?_, h.victim⟩
  have hmem : slot ∈ s.manager.buffers := h.perm.mem_iff.mpr hslot
  rw [hbuffers]
  have hback : (s.manager.buffers.erase slot ++ [slot]).Perm
      (slot :: s.manager.buffers.erase slot) := List.perm_append_comm
  exact (hback.trans (List.perm_cons_erase hmem).symm).trans h.perm

/-- A task's turn leaves every buffer in one list. -/
theorem PinSys.Listed.runTask {slots : List S} {s s' : PinSys T S}
    (h : s.Listed slots) (registered : Nat → Bool) {t : T}
    (hrun : s.runTask registered t = some s') : s'.Listed slots := by
  unfold PinSys.runTask at hrun
  cases hpc : s.pc t with
  | idle =>
    rw [hpc] at hrun
    cases hrun
  | lookup op key =>
    simp only [hpc] at hrun
    cases hidx : s.manager.bufferIndex key with
    | none =>
      simp only [BufferManager.pinBuffer, hidx, Option.map_none,
        Option.some.injEq] at hrun
      subst hrun
      exact h.leave (.refl _) rfl rfl
    | some slot =>
      simp only [BufferManager.pinBuffer, hidx, Option.map_some,
        Option.some.injEq] at hrun
      subst hrun
      exact h.leave (.incRef s.manager slot) rfl rfl
  | cachedWait op key slot =>
    simp only [hpc, Option.ite_none_left_eq_some] at hrun
    obtain ⟨-, hrun⟩ := hrun
    split at hrun
    · injection hrun with hrun
      subst hrun
      exact h.acquired registered op key slot
    · injection hrun with hrun
      subst hrun
      exact h.decRef slot rfl
  | findVictim op key =>
    simp only [hpc] at hrun
    split at hrun
    next slot hfound =>
      injection hrun with hrun
      subst hrun
      refine h.move (.refl _) rfl fun x hx => ?_
      injection hx with hx
      subst hx
      exact h.perm.mem_iff.mp
        (BufferManager.mem_of_findReclaimCandidate hfound)
    next =>
      injection hrun with hrun
      subst hrun
      exact h.leave (.refl _) rfl rfl
  | waitFree op key =>
    simp only [hpc, Option.some.injEq] at hrun
    subst hrun
    exact h.leave (.refl _) rfl rfl
  | victimWait op key slot =>
    simp only [hpc, Option.ite_none_left_eq_some] at hrun
    obtain ⟨-, hrun⟩ := hrun
    split at hrun
    · injection hrun with hrun
      subst hrun
      exact h.leave (.refl _) rfl rfl
    · split at hrun
      · injection hrun with hrun
        subst hrun
        refine h.submit registered .write slot (.victim op key) ?_
        intro x hx
        exact h.victim t x (by rw [hpc]; exact hx)
      · injection hrun with hrun
        subst hrun
        exact h.carry (.refl _) rfl (by rw [hpc]; rfl)
  | rebind op key slot =>
    have hslot : slot ∈ slots := h.victim t slot (by rw [hpc]; rfl)
    simp only [hpc] at hrun
    split at hrun
    next m hm =>
      injection hrun with hrun
      subst hrun
      exact (h.rebind hslot hm).acquired registered op key slot
    next =>
      injection hrun with hrun
      subst hrun
      exact h.leave (.refl _) rfl rfl
  | acquireIo ty slot k =>
    simp only [hpc, Option.ite_none_left_eq_some] at hrun
    obtain ⟨-, hrun⟩ := hrun
    split at hrun
    · injection hrun with hrun
      subst hrun
      exact h.carry (.refl _) rfl (by rw [hpc]; cases k <;> rfl)
    · injection hrun with hrun
      subst hrun
      exact h.carry ⟨rfl, rfl, fun _ => rfl⟩ rfl (by rw [hpc]; cases k <;> rfl)
  | waitRequest ty slot k =>
    simp only [hpc, Option.some.injEq] at hrun
    subst hrun
    exact h.carry (.setDirty s.manager slot false) rfl
      (by rw [hpc]; cases k <;> rfl)
  | waitIo slot k =>
    simp only [hpc, Option.ite_none_left_eq_some, Option.some.injEq] at hrun
    obtain ⟨-, hrun⟩ := hrun
    subst hrun
    exact h.continue registered hpc
  | dropping key slot =>
    simp only [hpc, Option.ite_none_left_eq_some, Option.some.injEq] at hrun
    obtain ⟨-, hrun⟩ := hrun
    subst hrun
    exact h.decRef slot rfl

theorem PinSys.Listed.step {slots : List S} {s s' : PinSys T S}
    (h : s.Listed slots) (registered : Nat → Bool) {a : PinAct T S}
    (hstep : s.step registered a = some s') : s'.Listed slots := by
  unfold PinSys.step at hstep
  simp only [Option.ite_none_left_eq_some] at hstep
  obtain ⟨-, hstep⟩ := hstep
  cases a with
  | call t op key =>
    simp only [Option.ite_none_right_eq_some, Option.some.injEq] at hstep
    obtain ⟨-, hstep⟩ := hstep
    subst hstep
    exact h.leave (.refl _) rfl rfl
  | syncDirty t dirty =>
    simp only [Option.ite_none_right_eq_some] at hstep
    obtain ⟨-, hstep⟩ := hstep
    cases dirty with
    | nil =>
      injection hstep with hstep
      exact hstep ▸ h
    | cons x rest =>
      injection hstep with hstep
      subst hstep
      exact h.submit registered .write x (.sync rest) fun y hy => by
        cases hy
  | drop t slot key =>
    simp only [Option.ite_none_right_eq_some, Option.some.injEq] at hstep
    obtain ⟨-, hstep⟩ := hstep
    subst hstep
    exact h.leave (.refl _) rfl rfl
  | modify slot key wholeBlock =>
    simp only [Option.ite_none_right_eq_some, Option.some.injEq] at hstep
    obtain ⟨-, hstep⟩ := hstep
    subst hstep
    have hdirty := SameIndex.setDirty s.manager slot true
    cases wholeBlock with
    | true =>
      exact h.quiet (hdirty.trans (.setUpToDate _ slot true)) h.victim
    | false => exact h.quiet hdirty h.victim
  | complete slot success =>
    simp only [Option.ite_none_right_eq_some, Option.some.injEq] at hstep
    obtain ⟨-, hstep⟩ := hstep
    subst hstep
    have hup := SameIndex.setUpToDate s.manager slot success
    exact h.quiet ⟨hup.index, hup.buffers, hup.key⟩ h.victim
  | run t => exact h.runTask registered hstep

omit [DecidableEq T] [DecidableEq S] in
theorem PinSys.Listed.init (slots : List S) :
    (PinSys.init slots : PinSys T S).Listed slots where
  bound := BufferManager.Bound.init slots
  perm := List.Perm.refl slots
  victim := nofun

-- ======== the result

omit [DecidableEq T] in
theorem PinSys.Listed.consistent {slots : List S} {s : PinSys T S}
    (h : s.Listed slots) (hnodup : slots.Nodup) :
    s.manager.Consistent slots where
  index := h.bound
  unique := by
    intro x y key hx hy
    have hindex := (h.bound key x).mpr hx
    rw [(h.bound key y).mpr hy, Option.some.injEq] at hindex
    exact hindex.symm
  once := by
    intro x hx
    rw [h.perm.count_eq]
    exact List.count_eq_one_of_mem hnodup hx
  only := fun x hx => h.perm.mem_iff.mp hx

/-- In every run of any number of tasks over the slots that `init` made,
every state reached has a consistent index and list. -/
theorem buffer_index_consistent (registered : Nat → Bool)
    (bufferMemoryEnd : BitVec 32) {s : PinSys T Nat}
    (h : Reachable (PinSys.step registered)
      (PinSys.init (scanBuffers bufferMemoryEnd)) s) :
    s.manager.Consistent (scanBuffers bufferMemoryEnd) := by
  have hlisted : s.Listed (scanBuffers bufferMemoryEnd) :=
    Reachable.invariant (PinSys.Listed.init _)
      (fun _ _ _ hs hstep => hs.step registered hstep) h
  exact hlisted.consistent (nodup_scanBuffers bufferMemoryEnd)

/-- Two blocks' worth of cache, and a task that has bound the first
slot. -/
theorem buffer_index_consistent_two_blocks : ∃ s : PinSys (Fin 1) Nat,
      run (PinSys.step fun _ => true) (PinSys.init (scanBuffers 0x200800))
        [.call 0 .get ⟨⟨0x0301⟩, 1⟩, .run 0, .run 0, .run 0, .run 0] = some s ∧
      s.manager.buffers = [0x200400, 0x200000] ∧
      s.manager.Consistent (scanBuffers 0x200800) := by
  obtain ⟨s, hs, hbuffers⟩ : ∃ s : PinSys (Fin 1) Nat,
      run (PinSys.step fun _ => true) (PinSys.init (scanBuffers 0x200800))
        [.call 0 .get ⟨⟨0x0301⟩, 1⟩, .run 0, .run 0, .run 0, .run 0] = some s ∧
      s.manager.buffers = [0x200400, 0x200000] :=
    ⟨_, rfl, by decide⟩
  exact ⟨s, hs, hbuffers, buffer_index_consistent (fun _ => true) 0x200800
    (Reachable.of_run .refl hs)⟩

end LinuxRs.Fs
