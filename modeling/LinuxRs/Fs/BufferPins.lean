/-
Who holds which buffer: the cache under any number of tasks
(kernel/src/fs/buffer.rs: `get`, `read`, `sync_dirty`, dropping a
`BufferHandle`, and the waits of `submit_request` below them).

# The system

A task stands at a point of the code where it may sleep (`Pc`), and
`runTask` is the code from there to the next such point. The points are
the acquisitions of the manager mutex, the waits for a slot's I/O lock,
the wait for a free request slot, and the wait for a free buffer. A
blocked task is one whose `runTask` is `none`; that it may continue as
soon as its condition holds, in any order with the others, includes
every order in which the wait queues let it. The device is the step
`complete`, which may come at any time after the request was queued.

# The defect

`try_acquire_victim` picks an unreferenced slot, looks again after the
wait for its I/O lock, but not after the write-back of a dirty victim
nor after taking the mutex: meanwhile another task can pin the slot
under its old key, or rebind the same victim. `Unclaimed` is the
re-check that is missing, together with the other way a count can be
lost, a pin at the top of the 16-bit counter. Runs that meet it are
exactly the runs in which every handle keeps its block
(`pinned_iff_unclaimed`).
-/
import LinuxRs.Lib.Run
import LinuxRs.Lib.Count
import LinuxRs.Fs.Buffer

namespace LinuxRs.Fs

open Function (update update_self update_of_ne)

open LinuxRs.Lib
open LinuxRs.Driver (BufferKey BlockRequestType)

variable {T S : Type}

-- ======== the system

inductive BufferOp
  | get
  | read
  deriving DecidableEq

inductive Cont (S : Type)
  | victim (op : BufferOp) (key : BufferKey)
  | read (key : BufferKey)
  | sync (rest : List S)
  deriving DecidableEq

/-- Where a task stands in a call, between two points where it may sleep. -/
inductive Pc (S : Type)
  | idle
  | lookup (op : BufferOp) (key : BufferKey)
  | cachedWait (op : BufferOp) (key : BufferKey) (slot : S)
  | findVictim (op : BufferOp) (key : BufferKey)
  | waitFree (op : BufferOp) (key : BufferKey)
  | victimWait (op : BufferOp) (key : BufferKey) (slot : S)
  | rebind (op : BufferOp) (key : BufferKey) (slot : S)
  | acquireIo (ty : BlockRequestType) (slot : S) (k : Cont S)
  | waitRequest (ty : BlockRequestType) (slot : S) (k : Cont S)
  | waitIo (slot : S) (k : Cont S)
  | dropping (key : BufferKey) (slot : S)
  deriving DecidableEq

/-- The cache, the slots with a queued request, the tasks, and the live
handles, each with the key it was obtained for. -/
structure PinSys (T S : Type) where
  manager : BufferManager S
  requested : S → Bool
  pc : T → Pc S
  handles : List (S × BufferKey)
  panicked : Bool

def PinSys.init (buffers : List S) : PinSys T S where
  manager := BufferManager.init buffers
  requested := fun _ => false
  pc := fun _ => .idle
  handles := []
  panicked := false

section
variable [DecidableEq T] [DecidableEq S] (registered : Nat → Bool)

def PinSys.goto (s : PinSys T S) (t : T) (pc : Pc S) : PinSys T S :=
  { s with pc := update s.pc t pc }

/-- A handle for `key` is handed to the caller. -/
def PinSys.handOut (s : PinSys T S) (t : T) (slot : S) (key : BufferKey) :
    PinSys T S :=
  { s.goto t .idle with handles := (slot, key) :: s.handles }

/-- `submit_and_wait` up to the first wait: an unbound slot or a device
without driver is not submitted. -/
def PinSys.submit (s : PinSys T S) (t : T) (ty : BlockRequestType)
    (slot : S) (k : Cont S) : PinSys T S :=
  match (s.manager.slot slot).key with
  | none => s.goto t (.waitIo slot k)
  | some key =>
    if registered key.dev.major then s.goto t (.acquireIo ty slot k)
    else s.goto t (.waitIo slot k)

/-- `acquire_slot` has returned: the rest of `get`, or of `read` up to
its first wait. -/
def PinSys.acquired (s : PinSys T S) (t : T) (op : BufferOp)
    (key : BufferKey) (slot : S) : PinSys T S :=
  match op with
  | .get => s.handOut t slot key
  | .read =>
    if (s.manager.slot slot).upToDate then s.handOut t slot key
    else s.submit registered t .read slot (.read key)

def PinSys.decRef (s : PinSys T S) (slot : S) : PinSys T S :=
  match s.manager.decRef slot with
  | some m => { s with manager := m }
  | none => { s with panicked := true }

/-- What follows the final wait of `submit_and_wait`. -/
def PinSys.continue (s : PinSys T S) (t : T) (slot : S) : Cont S → PinSys T S
  | .victim op key => s.goto t (.rebind op key slot)
  | .read key =>
    if (s.manager.slot slot).upToDate then s.handOut t slot key
    else s.goto t (.dropping key slot)
  | .sync [] => s.goto t .idle
  | .sync (next :: rest) => s.submit registered t .write next (.sync rest)

/-- The code of task `t` up to its next switch point; `none` while it is
blocked or has nothing to do. -/
def PinSys.runTask (s : PinSys T S) (t : T) : Option (PinSys T S) :=
  match s.pc t with
  | .idle => none
  | .lookup op key =>
    match s.manager.pinBuffer key with
    | some (slot, m) =>
      some ({ s with manager := m }.goto t (.cachedWait op key slot))
    | none => some (s.goto t (.findVictim op key))
  | .cachedWait op key slot =>
    if s.manager.ioLocked slot then none
    else if s.manager.keyMatches slot key then
      some (s.acquired registered t op key slot)
    else some ((s.decRef slot).goto t (.findVictim op key))
  | .findVictim op key =>
    match s.manager.findReclaimCandidate with
    | some slot => some (s.goto t (.victimWait op key slot))
    | none => some (s.goto t (.waitFree op key))
  | .waitFree op key => some (s.goto t (.lookup op key))
  | .victimWait op key slot =>
    if s.manager.ioLocked slot then none
    else if (s.manager.slot slot).refCount ≠ 0#16 then
      some (s.goto t (.lookup op key))
    else if (s.manager.slot slot).dirty then
      some (s.submit registered t .write slot (.victim op key))
    else some (s.goto t (.rebind op key slot))
  | .rebind op key slot =>
    match s.manager.tryRebindBuffer key slot with
    | some m => some ({ s with manager := m }.acquired registered t op key slot)
    | none => some (s.goto t (.lookup op key))
  | .acquireIo ty slot k =>
    if s.manager.ioLocked slot then none
    else if (ty = .read ∧ (s.manager.slot slot).upToDate) ∨
        (ty = .write ∧ ¬ (s.manager.slot slot).dirty) then
      -- Nothing to transfer: `release_io` at once.
      some (s.goto t (.waitIo slot k))
    else
      some ({ s with manager := s.manager.setIoLocked slot true }.goto t
        (.waitRequest ty slot k))
  | .waitRequest _ slot k =>
    some ({ s with
      manager := s.manager.setDirty slot false
      requested := update s.requested slot true }.goto t (.waitIo slot k))
  | .waitIo slot k =>
    if s.manager.ioLocked slot then none
    else some (s.continue registered t slot k)
  | .dropping _ slot =>
    if s.manager.ioLocked slot then none
    else some ((s.decRef slot).goto t .idle)

/-- A task starts a call or goes on to its next point; a disk answers. -/
inductive PinAct (T S : Type)
  | call (t : T) (op : BufferOp) (key : BufferKey)
  | syncDirty (t : T) (slots : List S)
  | drop (t : T) (slot : S) (key : BufferKey)
  | modify (slot : S) (key : BufferKey) (wholeBlock : Bool)
  | complete (slot : S) (success : Bool)
  | run (t : T)

/-- One step. A panic stops the kernel. `syncDirty` takes its snapshot of
dirty slots in one go; `modify` is a writer through a live handle, over
the whole block or not. -/
def PinSys.step (s : PinSys T S) (a : PinAct T S) : Option (PinSys T S) :=
  if s.panicked then none
  else match a with
  | .call t op key =>
    if s.pc t = .idle then some (s.goto t (.lookup op key)) else none
  | .syncDirty t slots =>
    if s.pc t = .idle ∧ ∀ x ∈ slots, (s.manager.slot x).dirty then
      match slots with
      | [] => some s
      | x :: rest => some (s.submit registered t .write x (.sync rest))
    else none
  | .drop t slot key =>
    if s.pc t = .idle ∧ (slot, key) ∈ s.handles then
      some { s.goto t (.dropping key slot) with
        handles := s.handles.erase (slot, key) }
    else none
  | .modify slot key wholeBlock =>
    if (slot, key) ∈ s.handles then
      let m := s.manager.setDirty slot true
      let m := if wholeBlock then m.setUpToDate slot true else m
      some { s with manager := m }
    else none
  | .complete slot success =>
    if s.requested slot then
      let m := (s.manager.setUpToDate slot success).setIoLocked slot false
      some { s with
        manager := m
        requested := update s.requested slot false }
    else none
  | .run t => s.runTask registered t

end

-- ======== the property

def Pc.ref : Pc S → Option S
  | .cachedWait _ _ slot => some slot
  | .acquireIo _ slot (.read _) => some slot
  | .waitRequest _ slot (.read _) => some slot
  | .waitIo slot (.read _) => some slot
  | .dropping _ slot => some slot
  | _ => none

/-- The handle in a task's hands: a `read` waiting for its data, or a
handle on its way out. -/
def Pc.handle : Pc S → Option (S × BufferKey)
  | .acquireIo _ slot (.read key) => some (slot, key)
  | .waitRequest _ slot (.read key) => some (slot, key)
  | .waitIo slot (.read key) => some (slot, key)
  | .dropping key slot => some (slot, key)
  | _ => none

section
variable [DecidableEq T]

theorem PinSys.submit_eq (registered : Nat → Bool) (s : PinSys T S) (t : T)
    (ty : BlockRequestType) (slot : S) (k : Cont S) :
    s.submit registered t ty slot k = s.goto t (.acquireIo ty slot k) ∨
      s.submit registered t ty slot k = s.goto t (.waitIo slot k) := by
  unfold PinSys.submit
  split
  · exact .inr rfl
  · split
    · exact .inl rfl
    · exact .inr rfl

variable [DecidableEq S]

/-- A task with a reference to `slot` obtains a handle for `key`, out or
still in its hands: only it moves, and the references stay. -/
structure PinSys.Obtained (s s' : PinSys T S) (t : T) (slot : S)
    (key : BufferKey) (p : Pc S) : Prop where
  pc : s'.pc = update s.pc t p
  manager : s'.manager = s.manager
  panicked : s'.panicked = s.panicked
  handles : ∀ x k, (x, k) ∈ s'.handles →
    (x, k) ∈ s.handles ∨ (x = slot ∧ k = key)
  hand : ∀ x k, p.handle = some (x, k) → x = slot ∧ k = key
  count : ∀ x, (s'.handles.map Prod.fst).count x + share p.ref x
    = (s.handles.map Prod.fst).count x + share (some slot) x

theorem PinSys.handOut_obtained (s : PinSys T S) (t : T) (slot : S)
    (key : BufferKey) :
    s.Obtained (s.handOut t slot key) t slot key .idle where
  pc := rfl
  manager := rfl
  panicked := rfl
  handles := by
    intro x k hmem
    rcases List.mem_cons.mp hmem with heq | hmem
    · exact .inr (by simpa using heq)
    · exact .inl hmem
  hand := by
    intro x k hp
    cases hp
  count := by
    intro x
    simp only [PinSys.handOut, List.map_cons, List.count_cons, Pc.ref,
      share_none, beq_iff_eq, Nat.add_zero]
    simp only [share, Option.some.injEq]

theorem PinSys.acquired_obtained (registered : Nat → Bool) (s : PinSys T S)
    (t : T) (op : BufferOp) (key : BufferKey) (slot : S) :
    ∃ p, s.Obtained (s.acquired registered t op key slot) t slot key p := by
  have hwait : ∀ p : Pc S, p.handle = some (slot, key) → p.ref = some slot →
      s.Obtained (s.goto t p) t slot key p := by
    intro p hh hr
    refine ⟨rfl, rfl, rfl, fun x k hm => .inl hm, ?_, fun x => by rw [hr]; rfl⟩
    intro x k hp
    rw [hh, Option.some.injEq, Prod.mk.injEq] at hp
    exact ⟨hp.1.symm, hp.2.symm⟩
  cases op with
  | get => exact ⟨_, s.handOut_obtained t slot key⟩
  | read =>
    unfold PinSys.acquired
    dsimp only
    split
    · exact ⟨_, s.handOut_obtained t slot key⟩
    · rcases s.submit_eq registered t .read slot (.read key) with h | h
      · rw [h]
        exact ⟨_, hwait _ rfl rfl⟩
      · rw [h]
        exact ⟨_, hwait _ rfl rfl⟩

end

variable [Fintype T] [DecidableEq S]

def PinSys.refs (s : PinSys T S) (slot : S) : Nat :=
  (s.handles.map Prod.fst).count slot + pointers (fun t => (s.pc t).ref) slot

/-- Every live handle still names its block, every count is the number
of handles and pins, and no `dec_ref` has panicked. -/
structure PinSys.Pinned (s : PinSys T S) : Prop where
  bound : ∀ x k, (x, k) ∈ s.handles → (s.manager.slot x).key = some k
  inHand : ∀ t x k, (s.pc t).handle = some (x, k) →
    (s.manager.slot x).key = some k
  count : ∀ x, (s.manager.slot x).refCount.toNat = s.refs x
  noPanic : s.panicked = false

/-- A task about to rebind finds its victim unreferenced, unless the key
is cached by now, and a pin does not overflow the counter. -/
def PinSys.Unclaimed (s : PinSys T S) : PinAct T S → Prop
  | .run t =>
    match s.pc t with
    | .rebind _ key slot => s.manager.bufferIndex key = none →
        (s.manager.slot slot).refCount = 0#16
    | .lookup _ key => ∀ slot, s.manager.bufferIndex key = some slot →
        (s.manager.slot slot).refCount ≠ 65535#16
    | _ => True
  | _ => True

/-- A slot without handles is bound anew, unless the block is indexed
already. -/
def PinSys.RebindsFree (s : PinSys T S) : PinAct T S → Prop
  | .run t =>
    match s.pc t with
    | .rebind _ key slot =>
      s.manager.bufferIndex key = none → s.refs slot = 0
    | _ => True
  | _ => True

-- ======== the invariant

/-- Pinned buffers are counted right, and the index is sound. -/
structure PinSys.Inv (s : PinSys T S) : Prop extends s.Pinned where
  index : s.manager.Bound

theorem PinSys.refs_pos_of_handle {s : PinSys T S} {x : S} {k : BufferKey}
    (h : (x, k) ∈ s.handles) : 0 < s.refs x := by
  have hmem : x ∈ s.handles.map Prod.fst := List.mem_map_of_mem h
  have := List.count_pos_iff.mpr hmem
  unfold PinSys.refs
  omega

omit [DecidableEq S] in
theorem Pc.ref_of_handle {p : Pc S} {x : S} {k : BufferKey}
    (h : p.handle = some (x, k)) : p.ref = some x := by
  unfold Pc.handle at h
  split at h <;> simp_all [Pc.ref]

theorem PinSys.refs_pos_of_ref {s : PinSys T S} {t : T} {x : S}
    (h : (s.pc t).ref = some x) : 0 < s.refs x := by
  have := pointers_pos (f := fun t => (s.pc t).ref) h
  unfold PinSys.refs
  omega

variable [DecidableEq T]

theorem PinSys.refs_update {s s' : PinSys T S} {t : T} {p : Pc S}
    (hpc : s'.pc = update s.pc t p) (x : S) :
    s'.refs x + ((s.handles.map Prod.fst).count x + share (s.pc t).ref x)
      = s.refs x + ((s'.handles.map Prod.fst).count x + share p.ref x) := by
  have hmove := pointers_update (fun t => (s.pc t).ref) t p.ref x
  have hfun : (fun u => (s'.pc u).ref)
      = update (fun u => (s.pc u).ref) t p.ref := by
    funext u
    rw [hpc]
    by_cases hu : u = t
    · subst hu
      simp
    · simp [hu]
  unfold PinSys.refs
  rw [hfun]
  omega

/-- A task that only goes on keeps the invariant. -/
theorem PinSys.Inv.move {s s' : PinSys T S} (h : s.Inv) {t : T} {p : Pc S}
    (hpc : s'.pc = update s.pc t p)
    (hpanic : s'.panicked = false) (hindex : s'.manager.Bound)
    (hkeep : ∀ x k, 0 < s.refs x → (s.manager.slot x).key = some k →
      (s'.manager.slot x).key = some k)
    (hhandles : ∀ x k, (x, k) ∈ s'.handles →
      (x, k) ∈ s.handles ∨ (s'.manager.slot x).key = some k)
    (hhand : ∀ x k, p.handle = some (x, k) → (s'.manager.slot x).key = some k)
    (hcount : ∀ x, (s'.manager.slot x).refCount.toNat
        + ((s.handles.map Prod.fst).count x + share (s.pc t).ref x)
      = (s.manager.slot x).refCount.toNat
        + ((s'.handles.map Prod.fst).count x + share p.ref x)) :
    s'.Inv := by
  refine ⟨⟨?_, ?_, ?_, hpanic⟩, hindex⟩
  · intro x k hmem
    rcases hhandles x k hmem with hold | hnew
    · exact hkeep x k (PinSys.refs_pos_of_handle hold) (h.bound x k hold)
    · exact hnew
  · intro u x k hu
    rw [hpc] at hu
    by_cases hut : u = t
    · subst hut
      rw [update_self] at hu
      exact hhand x k hu
    · rw [update_of_ne hut] at hu
      exact hkeep x k (PinSys.refs_pos_of_ref (Pc.ref_of_handle hu))
        (h.inHand u x k hu)
  · intro x
    have hmove := PinSys.refs_update hpc x
    have := hcount x
    have := h.count x
    omega

theorem PinSys.Inv.quiet {s s' : PinSys T S} (h : s.Inv) {t : T} {p : Pc S}
    (hpc : s'.pc = update s.pc t p)
    (hpanic : s'.panicked = s.panicked) (hhandles : s'.handles = s.handles)
    (hindex : s'.manager.bufferIndex = s.manager.bufferIndex)
    (hkey : ∀ x, (s'.manager.slot x).key = (s.manager.slot x).key)
    (hcount : ∀ x, (s'.manager.slot x).refCount = (s.manager.slot x).refCount)
    (href : p.ref = (s.pc t).ref) (hhand : p.handle = (s.pc t).handle) :
    s'.Inv := by
  refine h.move hpc (hpanic.trans h.noPanic) (h.index.congr hindex hkey)
    ?_ ?_ ?_ ?_
  · intro x k _ hk
    rw [hkey, hk]
  · intro x k hmem
    exact .inl (hhandles ▸ hmem)
  · intro x k hp
    rw [hkey]
    exact h.inHand t x k (hhand ▸ hp)
  · intro x
    rw [hcount, href, hhandles]

theorem PinSys.Inv.goto {s : PinSys T S} (h : s.Inv) {t : T} {p : Pc S}
    (href : p.ref = (s.pc t).ref) (hhand : p.handle = (s.pc t).handle) :
    (s.goto t p).Inv :=
  h.quiet rfl rfl rfl rfl (fun _ => rfl) (fun _ => rfl) href hhand

-- ======== the steps

/-- Getting a buffer counts one reference, which the task then holds. -/
theorem PinSys.Inv.obtained {s s₁ s' : PinSys T S} (h : s.Inv) {t : T}
    {slot : S} {key : BufferKey} {p : Pc S} (ho : s₁.Obtained s' t slot key p)
    (hpc : s₁.pc = s.pc) (hhandles : s₁.handles = s.handles)
    (hpanic : s₁.panicked = s.panicked) (hindex : s₁.manager.Bound)
    (hkeep : ∀ x k, 0 < s.refs x → (s.manager.slot x).key = some k →
      (s₁.manager.slot x).key = some k)
    (hkey : (s₁.manager.slot slot).key = some key)
    (hcount : ∀ x, (s₁.manager.slot x).refCount.toNat + share (s.pc t).ref x
      = (s.manager.slot x).refCount.toNat + share (some slot) x) :
    s'.Inv := by
  obtain ⟨hp, hm, hpan, hh, hhand, hcnt⟩ := ho
  refine h.move (by rw [hp, hpc]) ((hpan.trans hpanic).trans h.noPanic)
    (by rwa [hm]) ?_ ?_ ?_ ?_
  · rwa [hm]
  · intro x k hmem
    rw [hm]
    rcases hh x k hmem with hold | ⟨rfl, rfl⟩
    · exact .inl (hhandles ▸ hold)
    · exact .inr hkey
  · intro x k hpx
    obtain ⟨rfl, rfl⟩ := hhand x k hpx
    rwa [hm]
  · intro x
    rw [hm]
    have h₁ := hcount x
    have h₂ := hcnt x
    rw [hhandles] at h₂
    omega

/-- A reference is given back by the task that has it. -/
theorem PinSys.Inv.decRef {s : PinSys T S} (h : s.Inv) {t : T} {slot : S}
    (href : (s.pc t).ref = some slot) {p : Pc S} (hp : p.ref = none)
    (hph : p.handle = none) : ((s.decRef slot).goto t p).Inv := by
  have hpos := PinSys.refs_pos_of_ref href
  have hcnt := h.count slot
  have hne : (s.manager.slot slot).refCount ≠ 0#16 := by
    intro h0
    rw [h0] at hcnt
    simp only [BitVec.toNat_ofNat, Nat.zero_mod] at hcnt
    omega
  obtain ⟨m, hm, hrec, hcount⟩ := BufferManager.decRef_spec hne
  have hdec : s.decRef slot = { s with manager := m } := by
    simp only [PinSys.decRef, hm]
  rw [hdec]
  refine h.move rfl h.noPanic (h.index.congr hrec.index hrec.key) ?_ ?_ ?_ ?_
  · exact fun x k _ hk => (hrec.key x).trans hk
  · exact fun x k hmem => .inl hmem
  · intro x k hx
    rw [hph] at hx
    cases hx
  · intro x
    have := hcount x
    simp only [PinSys.goto, hp, href, share_none]
    omega

theorem PinSys.Inv.submit {s : PinSys T S} (h : s.Inv)
    (registered : Nat → Bool) {t : T} (ty : BlockRequestType) (slot : S)
    (k : Cont S) (href : (Pc.waitIo slot k).ref = (s.pc t).ref)
    (hhand : (Pc.waitIo slot k).handle = (s.pc t).handle) :
    (s.submit registered t ty slot k).Inv := by
  have href' : (Pc.acquireIo ty slot k).ref = (s.pc t).ref := by
    rw [← href]
    cases k <;> rfl
  have hhand' : (Pc.acquireIo ty slot k).handle = (s.pc t).handle := by
    rw [← hhand]
    cases k <;> rfl
  rcases s.submit_eq registered t ty slot k with heq | heq
  · rw [heq]
    exact h.goto href' hhand'
  · rw [heq]
    exact h.goto href hhand

theorem PinSys.Inv.continue {s : PinSys T S} (h : s.Inv)
    (registered : Nat → Bool) {t : T} {slot : S} {k : Cont S}
    (hpc : s.pc t = .waitIo slot k) : (s.continue registered t slot k).Inv := by
  cases k with
  | victim op key => exact h.goto (by rw [hpc]; rfl) (by rw [hpc]; rfl)
  | read key =>
    simp only [PinSys.continue]
    split
    · refine h.obtained (s.handOut_obtained t slot key) rfl rfl rfl h.index
        (fun x k _ hk => hk) (h.inHand t slot key (by rw [hpc]; rfl)) ?_
      intro x
      rw [hpc]
      rfl
    · exact h.goto (by rw [hpc]; rfl) (by rw [hpc]; rfl)
  | sync rest =>
    cases rest with
    | nil => exact h.goto (by rw [hpc]; rfl) (by rw [hpc]; rfl)
    | cons next rest =>
      exact h.submit registered .write next (.sync rest)
        (by rw [hpc]; rfl) (by rw [hpc]; rfl)

theorem PinSys.Inv.pin {s : PinSys T S} (h : s.Inv) {t : T} {op : BufferOp}
    {key : BufferKey} {slot : S} (hpc : s.pc t = .lookup op key)
    (hne : (s.manager.slot slot).refCount ≠ 65535#16) :
    ({ s with manager := s.manager.incRef slot }.goto t
      (.cachedWait op key slot)).Inv := by
  obtain ⟨hrec, hcount⟩ := s.manager.incRef_spec slot
  refine h.move rfl h.noPanic (h.index.congr hrec.index hrec.key) ?_ ?_ ?_ ?_
  · exact fun x k _ hk => (hrec.key x).trans hk
  · exact fun x k hmem => .inl hmem
  · intro x k hx
    cases hx
  · intro x
    have := hcount hne x
    simp only [PinSys.goto, hpc, Pc.ref, share_none]
    omega

/-- A buffer is rebound under a reference that is the only one. -/
theorem PinSys.Inv.rebind {s : PinSys T S} (h : s.Inv)
    (registered : Nat → Bool) {t : T} {op : BufferOp} {key : BufferKey}
    {slot : S} (hpc : s.pc t = .rebind op key slot)
    {m : BufferManager S} (hm : s.manager.tryRebindBuffer key slot = some m)
    (hzero : (s.manager.slot slot).refCount = 0#16) :
    ({ s with manager := m }.acquired registered t op key slot).Inv := by
  obtain ⟨-, hbound, hslot, hother, -, -⟩ :=
    BufferManager.tryRebindBuffer_spec h.index hm
  obtain ⟨p, hp⟩ := PinSys.acquired_obtained registered
    { s with manager := m } t op key slot
  have hrefs : s.refs slot = 0 := by
    rw [← h.count slot, hzero]
    rfl
  refine h.obtained hp rfl rfl rfl hbound ?_ (by simp only [hslot]) ?_
  · intro x k hx hk
    have hne : x ≠ slot := by
      rintro rfl
      omega
    simp only [hother x hne, hk]
  · intro x
    rw [hpc]
    by_cases hx : x = slot
    · subst hx
      simp [hslot, hzero, Pc.ref]
    · simp only [hother x hx, share_of_ne (Ne.symm hx), Pc.ref, share_none]

/-- A turn of a task, place by place in its program, keeps the invariant, if
nobody has claimed the buffer it chose. -/
theorem PinSys.Inv.runTask {s s' : PinSys T S} (h : s.Inv)
    (registered : Nat → Bool) {t : T} (hg : s.Unclaimed (.run t))
    (hrun : s.runTask registered t = some s') : s'.Inv := by
  unfold PinSys.runTask at hrun
  simp only [PinSys.Unclaimed] at hg
  cases hpc : s.pc t with
  | idle =>
    rw [hpc] at hrun
    cases hrun
  | lookup op key =>
    simp only [hpc] at hrun hg
    cases hidx : s.manager.bufferIndex key with
    | none =>
      simp only [BufferManager.pinBuffer, hidx, Option.map_none,
        Option.some.injEq] at hrun
      subst hrun
      exact h.goto (by rw [hpc]; rfl) (by rw [hpc]; rfl)
    | some slot =>
      simp only [BufferManager.pinBuffer, hidx, Option.map_some,
        Option.some.injEq] at hrun
      subst hrun
      exact h.pin hpc (hg slot hidx)
  | cachedWait op key slot =>
    simp only [hpc, Option.ite_none_left_eq_some] at hrun
    obtain ⟨-, hrun⟩ := hrun
    split at hrun
    next hkey =>
      injection hrun with hrun
      subst hrun
      obtain ⟨p, hp⟩ := s.acquired_obtained registered t op key slot
      refine h.obtained hp rfl rfl rfl h.index (fun x k _ hk => hk) ?_ ?_
      · simpa [BufferManager.keyMatches] using hkey
      · intro x
        rw [hpc]
        rfl
    next =>
      injection hrun with hrun
      subst hrun
      exact h.decRef (by rw [hpc]; rfl) rfl rfl
  | findVictim op key =>
    simp only [hpc] at hrun
    split at hrun <;>
    · injection hrun with hrun
      subst hrun
      exact h.goto (by rw [hpc]; rfl) (by rw [hpc]; rfl)
  | waitFree op key =>
    simp only [hpc, Option.some.injEq] at hrun
    subst hrun
    exact h.goto (by rw [hpc]; rfl) (by rw [hpc]; rfl)
  | victimWait op key slot =>
    simp only [hpc, Option.ite_none_left_eq_some] at hrun
    obtain ⟨-, hrun⟩ := hrun
    split at hrun
    · injection hrun with hrun
      subst hrun
      exact h.goto (by rw [hpc]; rfl) (by rw [hpc]; rfl)
    · split at hrun
      · injection hrun with hrun
        subst hrun
        exact h.submit registered .write slot (.victim op key)
          (by rw [hpc]; rfl) (by rw [hpc]; rfl)
      · injection hrun with hrun
        subst hrun
        exact h.goto (by rw [hpc]; rfl) (by rw [hpc]; rfl)
  | rebind op key slot =>
    simp only [hpc] at hrun hg
    split at hrun
    next m hm =>
      injection hrun with hrun
      subst hrun
      obtain ⟨hfree, -⟩ := BufferManager.tryRebindBuffer_spec h.index hm
      exact h.rebind registered hpc hm (hg hfree)
    next =>
      injection hrun with hrun
      subst hrun
      exact h.goto (by rw [hpc]; rfl) (by rw [hpc]; rfl)
  | acquireIo ty slot k =>
    simp only [hpc, Option.ite_none_left_eq_some] at hrun
    obtain ⟨-, hrun⟩ := hrun
    split at hrun
    · injection hrun with hrun
      subst hrun
      exact h.goto (by rw [hpc]; cases k <;> rfl) (by rw [hpc]; cases k <;> rfl)
    · injection hrun with hrun
      subst hrun
      exact h.quiet rfl rfl rfl rfl (fun _ => rfl) (fun _ => rfl)
        (by rw [hpc]; cases k <;> rfl) (by rw [hpc]; cases k <;> rfl)
  | waitRequest ty slot k =>
    simp only [hpc, Option.some.injEq] at hrun
    subst hrun
    refine h.quiet rfl rfl rfl rfl ?_ ?_
      (by rw [hpc]; cases k <;> rfl) (by rw [hpc]; cases k <;> rfl)
    · intro x
      simp only [PinSys.goto, BufferManager.setDirty,
        BufferManager.onSlot_slot]
      split
      next hx => rw [hx]
      next => rfl
    · intro x
      simp only [PinSys.goto, BufferManager.setDirty,
        BufferManager.onSlot_slot]
      split
      next hx => rw [hx]
      next => rfl
  | waitIo slot k =>
    simp only [hpc, Option.ite_none_left_eq_some, Option.some.injEq] at hrun
    obtain ⟨-, rfl⟩ := hrun
    exact h.continue registered hpc
  | dropping key slot =>
    simp only [hpc, Option.ite_none_left_eq_some, Option.some.injEq] at hrun
    obtain ⟨-, rfl⟩ := hrun
    exact h.decRef (by rw [hpc]; rfl) rfl rfl

omit [DecidableEq T] in
theorem PinSys.Inv.congr {s s' : PinSys T S} (h : s.Inv) (hpc : s'.pc = s.pc)
    (hpanic : s'.panicked = s.panicked) (hhandles : s'.handles = s.handles)
    (hindex : s'.manager.bufferIndex = s.manager.bufferIndex)
    (hkey : ∀ x, (s'.manager.slot x).key = (s.manager.slot x).key)
    (hcount : ∀ x, (s'.manager.slot x).refCount
      = (s.manager.slot x).refCount) : s'.Inv := by
  refine ⟨⟨?_, ?_, ?_, hpanic.trans h.noPanic⟩, h.index.congr hindex hkey⟩
  · intro x k hmem
    rw [hkey]
    exact h.bound x k (hhandles ▸ hmem)
  · intro t x k ht
    rw [hkey]
    exact h.inHand t x k (hpc ▸ ht)
  · intro x
    rw [hcount, h.count x]
    unfold PinSys.refs
    rw [hpc, hhandles]

theorem PinSys.Inv.drop {s : PinSys T S} (h : s.Inv) {t : T} {slot : S}
    {key : BufferKey} (hpc : s.pc t = .idle)
    (hmem : (slot, key) ∈ s.handles) : ({ s.goto t (.dropping key slot) with
      handles := s.handles.erase (slot, key) } : PinSys T S).Inv := by
  refine h.move rfl h.noPanic h.index (fun x k _ hk => hk) ?_ ?_ ?_
  · exact fun x k hx => .inl (List.mem_of_mem_erase hx)
  · intro x k hx
    obtain ⟨rfl, rfl⟩ := hx
    exact h.bound slot key hmem
  · intro x
    have hperm := (List.perm_cons_erase hmem).map Prod.fst
    have hcnt := hperm.count_eq x
    simp only [List.map_cons, List.count_cons, beq_iff_eq] at hcnt
    simp only [PinSys.goto, hpc, Pc.ref, share_none]
    simp only [share, Option.some.injEq]
    omega

/-- A step in which nobody claims a slot in use keeps the invariant. -/
theorem PinSys.Inv.step {s s' : PinSys T S} (h : s.Inv)
    (registered : Nat → Bool) {a : PinAct T S} (hg : s.Unclaimed a)
    (hstep : s.step registered a = some s') : s'.Inv := by
  unfold PinSys.step at hstep
  rw [if_neg (by simp [h.noPanic])] at hstep
  cases a with
  | call t op key =>
    simp only [Option.ite_none_right_eq_some, Option.some.injEq] at hstep
    obtain ⟨hpc, rfl⟩ := hstep
    exact h.goto (by rw [hpc]; rfl) (by rw [hpc]; rfl)
  | syncDirty t slots =>
    simp only [Option.ite_none_right_eq_some] at hstep
    obtain ⟨⟨hpc, -⟩, hstep⟩ := hstep
    cases slots with
    | nil =>
      injection hstep with hstep
      exact hstep ▸ h
    | cons x rest =>
      injection hstep with hstep
      subst hstep
      exact h.submit registered .write x (.sync rest)
        (by rw [hpc]; rfl) (by rw [hpc]; rfl)
  | drop t slot key =>
    simp only [Option.ite_none_right_eq_some, Option.some.injEq] at hstep
    obtain ⟨⟨hpc, hmem⟩, rfl⟩ := hstep
    exact h.drop hpc hmem
  | modify slot key wholeBlock =>
    simp only [Option.ite_none_right_eq_some, Option.some.injEq] at hstep
    obtain ⟨-, rfl⟩ := hstep
    cases wholeBlock with
    | true =>
      refine h.congr rfl rfl rfl rfl (fun x => ?_) fun x => ?_
      · by_cases hx : x = slot <;>
          simp [BufferManager.setUpToDate, BufferManager.setDirty,
            BufferManager.onSlot_slot, hx]
      · by_cases hx : x = slot <;>
          simp [BufferManager.setUpToDate, BufferManager.setDirty,
            BufferManager.onSlot_slot, hx]
    | false =>
      refine h.congr rfl rfl rfl rfl (fun x => ?_) fun x => ?_
      · by_cases hx : x = slot <;>
          simp [BufferManager.setDirty, BufferManager.onSlot_slot, hx]
      · by_cases hx : x = slot <;>
          simp [BufferManager.setDirty, BufferManager.onSlot_slot, hx]
  | complete slot success =>
    simp only [Option.ite_none_right_eq_some, Option.some.injEq] at hstep
    obtain ⟨-, rfl⟩ := hstep
    refine h.congr rfl rfl rfl rfl (fun x => ?_) fun x => ?_
    · by_cases hx : x = slot <;>
        simp [BufferManager.setUpToDate, BufferManager.setIoLocked,
          BufferManager.onSlot_slot, hx]
    · by_cases hx : x = slot <;>
        simp [BufferManager.setUpToDate, BufferManager.setIoLocked,
          BufferManager.onSlot_slot, hx]
  | run t => exact h.runTask registered hg hstep

/-- A claimed buffer that is chosen after all is taken from the task that
pinned it. -/
theorem PinSys.Inv.not_pinned_of_claimed {s s' : PinSys T S} (h : s.Inv)
    (registered : Nat → Bool) {a : PinAct T S} (hg : ¬ s.Unclaimed a)
    (hstep : s.step registered a = some s') : ¬ s'.Pinned := by
  unfold PinSys.step at hstep
  rw [if_neg (by simp [h.noPanic])] at hstep
  cases a with
  | run t =>
    unfold PinSys.runTask at hstep
    simp only [PinSys.Unclaimed] at hg
    intro hpin
    cases hpc : s.pc t with
    | lookup op key =>
      simp only [hpc] at hg hstep
      push Not at hg
      obtain ⟨slot, hidx, htop⟩ := hg
      simp only [BufferManager.pinBuffer, hidx, Option.map_some,
        Option.some.injEq] at hstep
      subst hstep
      -- The counter wraps to zero, but the pin is there.
      have hpos := PinSys.refs_pos_of_ref (t := t) (x := slot)
        (s := { s with manager := s.manager.incRef slot }.goto t
          (.cachedWait op key slot)) (by simp [PinSys.goto, Pc.ref])
      rw [← hpin.count slot] at hpos
      simp only [PinSys.goto, BufferManager.incRef,
        BufferManager.onSlot_slot, if_true, htop] at hpos
      exact absurd hpos (by decide)
    | rebind op key slot =>
      simp only [hpc] at hg hstep
      push Not at hg
      obtain ⟨hfree, hne⟩ := hg
      split at hstep
      next m hm =>
        injection hstep with hstep
        obtain ⟨-, -, hslot, -, -, -⟩ :=
          BufferManager.tryRebindBuffer_spec h.index hm
        obtain ⟨p, hp⟩ := PinSys.acquired_obtained registered
          { s with manager := m } t op key slot
        rw [hstep] at hp
        have hcnt := hpin.count slot
        rw [hp.manager, hslot] at hcnt
        have hmove := PinSys.refs_update (s := s) hp.pc slot
        have hshare := hp.count slot
        have hold := h.count slot
        have hpos : (s.manager.slot slot).refCount.toNat ≠ 0 := fun h0 =>
          hne (BitVec.eq_of_toNat_eq (by simpa using h0))
        simp only [hpc, Pc.ref, share_none, share_self] at hmove hshare
        simp only [BitVec.toNat_ofNat] at hcnt
        omega
      next hm =>
        simp [BufferManager.tryRebindBuffer, hfree] at hm
    | _ => simp [hpc] at hg
  | _ => exact absurd trivial hg

omit [DecidableEq T] in
theorem PinSys.Inv.init (buffers : List S) :
    (PinSys.init buffers : PinSys T S).Inv := by
  refine ⟨⟨?_, ?_, ?_, rfl⟩, BufferManager.Bound.init buffers⟩
  · intro x k hmem
    cases hmem
  · intro t x k hx
    cases hx
  · intro x
    have hzero : pointers (fun t => ((PinSys.init buffers : PinSys T S).pc t).ref)
        x = 0 := pointers_eq_zero nofun
    simp only [PinSys.refs, hzero]
    rfl

-- ======== the result

omit [DecidableEq T] in
theorem PinSys.Inv.rebindsFree {s : PinSys T S} (h : s.Inv)
    {a : PinAct T S} (hg : s.Unclaimed a) : s.RebindsFree a := by
  cases a with
  | run t =>
    simp only [PinSys.Unclaimed] at hg
    simp only [PinSys.RebindsFree]
    cases hpc : s.pc t with
    | rebind op key slot =>
      simp only [hpc] at hg ⊢
      intro hfree
      rw [← h.count slot, hg hfree]
      rfl
    | _ => trivial
  | _ => trivial

/-- In a run of any number of tasks, every handle keeps its block, every
count is right, nothing panics and only unreferenced slots are rebound,
exactly when no rebind finds its victim claimed and no pin overflows the
counter. -/
theorem pinned_iff_unclaimed (registered : Nat → Bool) (buffers : List S)
    (as : List (PinAct T S)) :
    ((∀ s ∈ visited (PinSys.step registered) (PinSys.init buffers) as,
        s.Pinned) ∧
      Guarded (PinSys.step registered) PinSys.RebindsFree
        (PinSys.init buffers) as) ↔
    Guarded (PinSys.step registered) PinSys.Unclaimed (PinSys.init buffers)
      as := by
  have hexact : (∀ s ∈ visited (PinSys.step registered)
      (PinSys.init buffers) as, s.Pinned) ↔
      Guarded (PinSys.step registered) PinSys.Unclaimed
        (PinSys.init buffers) as :=
    visited_iff_guarded (I := PinSys.Inv) (fun _ h => h.toPinned)
      (fun _ _ _ h hg hstep => h.step registered hg hstep)
      (fun _ _ _ h hg hstep => h.not_pinned_of_claimed registered hg hstep)
      (PinSys.Inv.init buffers)
  constructor
  · exact fun h => hexact.mp h.1
  · intro h
    refine ⟨hexact.mpr h, ?_⟩
    exact Guarded.weaken (I := PinSys.Inv)
      (fun _ _ _ hi hg hstep => hi.step registered hg hstep)
      (fun _ _ hi hg => hi.rebindsFree hg) (PinSys.Inv.init buffers) h

/-- One slot, two tasks. Task 0 leaves block 1 dirty and asks for block
2; while the victim is written back, task 1 gets block 1 from the cache;
then task 0 rebinds the slot under it. -/
def claimedVictim : List (PinAct (Fin 2) (Fin 1)) :=
  let block (n : BitVec 32) : BufferKey := ⟨⟨0x0301#16⟩, n⟩
  [.call 0 .get (block 1), .run 0, .run 0, .run 0, .run 0,
    .modify 0 (block 1) true, .drop 0 0 (block 1),
    .run 0, .call 0 .get (block 2), .run 0, .run 0, .run 0, .run 0, .run 0,
    .call 1 .get (block 1), .run 1, .complete 0 true, .run 1, .run 0, .run 0]

/-- The second task's handle ends up on another block. -/
theorem pinned_fails_after_write_back :
    ¬ ∀ s ∈ visited (PinSys.step fun major => major == 3)
        (PinSys.init [0]) claimedVictim, s.Pinned := by
  intro hall
  have hrun : ((run (PinSys.step fun major => major == 3) (PinSys.init [0])
      claimedVictim).map fun s => (s.handles, (s.manager.slot 0).key))
      = some ([(0, ⟨⟨0x0301#16⟩, 2⟩), (0, ⟨⟨0x0301#16⟩, 1⟩)],
        some ⟨⟨0x0301#16⟩, 2⟩) := by
    decide
  obtain ⟨s, hs, heq⟩ := Option.map_eq_some_iff.mp hrun
  simp only [Prod.mk.injEq] at heq
  have hbound := (hall s (mem_visited_of_run hs)).bound 0 ⟨⟨0x0301#16⟩, 1⟩
    (by rw [heq.1]; simp)
  rw [heq.2] at hbound
  exact absurd hbound (by decide)

end LinuxRs.Fs
