/-
The order in which the Minix layer takes its mutexes
(kernel/src/fs/minix.rs).

# The scripts

Each runtime inode has its `inner` mutex, each mounted file system one
of its own, and the inode table a third. The functions below take them
in nested fashion; a script keeps what a function locks and unlocks and
has as arguments what the function finds out on the way: the zones on
the path of a block, whether an inode is dirty or unlinked, and whether
the weak handle to the file system still upgrades.

Three of the functions go from the inode to its file system.
`truncate` goes the other way: it locks the file system first and the
inode second. So it can close a circle with an operation that allocates
a zone for the same inode (`truncate_deadlocks_with_write`).

# The result

A cycle of sleepers is always that one (`minix_deadlock_iff`): a
`truncate` that holds a file system and waits for an inode, whose holder
waits for the file system. Nobody waits in a circle as long as each
`truncate` finds the `inner` mutex of its inode free.
-/
import LinuxRs.Lib.Locks

namespace LinuxRs.Fs

open Function (update_self update_of_ne)

open LinuxRs.Lib
open Relation (TransGen)

variable {T I D : Type} [DecidableEq T] [DecidableEq I] [DecidableEq D]

-- ======== the mutexes

/-- The mutexes of minix.rs: `INODE_TABLE`, `Inode::inner` and the one
around `MinixFileSystem`. -/
inductive MinixLock (I D : Type)
  | table
  | inner (i : I)
  | fs (d : D)
  deriving DecidableEq

/-- The operations, with what they find. `dirty` and `unlinked` are
`is_dirty` and `link_count == 0`; `upgrades` is the answer of
`file_system.upgrade()`. -/
inductive MinixOp (I D : Type)
  | mapBlockId (i : I) (create upgrades : Bool) (levels : List (Nat × Nat))
  | truncate (i : I) (upgrades : Bool)
  | sync (i : I) (dirty upgrades : Bool)
  | syncInodes (slots : List (I × Bool × Bool))
  | flushSlot (i : I) (unlinked dirty upgrades : Bool)
  | acquireRaw (d : D) (scanned : List I)
      (victim : Option (I × Bool × Bool × Bool))
  | useInner (i : I)
  | useFs (d : D)

-- ======== the scripts

/-- The allocations of `map_block_id` down the zone tree: for each level
the zone number found and what the allocator gives. A hole is filled
under the file-system mutex if `create` is set, and a zone that stays 0
ends the walk. -/
def mapLevels (d : D) (create : Bool) :
    List (Nat × Nat) → List (LockStep (MinixLock I D))
  | [] => []
  | (found, fresh) :: rest =>
    if found = 0 then
      if create then
        locked (.fs d) [] ++ (if fresh = 0 then [] else mapLevels d create rest)
      else []
    else mapLevels d create rest

section Scripts

variable (dev : I → D)

def mapBlockId (i : I) (create upgrades : Bool) (levels : List (Nat × Nat)) :
    List (LockStep (MinixLock I D)) :=
  if upgrades then locked (.inner i) (mapLevels (dev i) create levels) else []

def truncateScript (i : I) (upgrades : Bool) :
    List (LockStep (MinixLock I D)) :=
  if upgrades then locked (.fs (dev i)) (locked (.inner i) []) else []

def syncScript (i : I) (dirty upgrades : Bool) :
    List (LockStep (MinixLock I D)) :=
  locked (.inner i) (if dirty && upgrades then locked (.fs (dev i)) [] else [])

/-- `InodeTable::flush_slot`: the guard of the first look is dropped
before anything else is locked. -/
def flushSlot (i : I) (unlinked dirty upgrades : Bool) :
    List (LockStep (MinixLock I D)) :=
  locked (.inner i) [] ++ (if unlinked then
      truncateScript dev i upgrades ++
        (if upgrades then locked (.fs (dev i)) [] else [])
    else if dirty then syncScript dev i dirty upgrades
    else [])

/-- `InodeTable::acquire_raw` of an inode that is not cached: read it,
look at the unused slots for a victim, flush the victim. -/
def acquireRaw (d : D) (scanned : List I)
    (victim : Option (I × Bool × Bool × Bool)) :
    List (LockStep (MinixLock I D)) :=
  locked (.fs d) [] ++ (scanned.flatMap fun i => locked (.inner i) []) ++
    (match victim with
    | some v => flushSlot dev v.1 v.2.1 v.2.2.1 v.2.2.2
    | none => [])

/-- The script of an operation. The table's own functions run under its
mutex. -/
def minixScript : MinixOp I D → List (LockStep (MinixLock I D))
  | .mapBlockId i create upgrades levels =>
    mapBlockId dev i create upgrades levels
  | .truncate i upgrades => truncateScript dev i upgrades
  | .sync i dirty upgrades => syncScript dev i dirty upgrades
  | .syncInodes slots =>
    locked .table
      (slots.flatMap fun slot => syncScript dev slot.1 slot.2.1 slot.2.2)
  | .flushSlot i unlinked dirty upgrades =>
    locked .table (flushSlot dev i unlinked dirty upgrades)
  | .acquireRaw d scanned victim =>
    locked .table (acquireRaw dev d scanned victim)
  | .useInner i => locked (.inner i) []
  | .useFs d => locked (.fs d) []

-- ======== the nesting

/-- The order in which the locks are taken. -/
def Before : MinixLock I D → MinixLock I D → Prop
  | .table, .inner _ => True
  | .table, .fs _ => True
  | .inner i, .fs d => d = dev i
  | _, _ => False

/-- What may be held when a mutex is locked: only mutexes before it, or
the file system and the table before an inode, as in `truncate`. -/
def Nests (held : List (MinixLock I D)) (l : MinixLock I D) : Prop :=
  (∀ h ∈ held, Before dev h l) ∨ ∃ i, l = .inner i ∧ .fs (dev i) ∈ held ∧
      ∀ h ∈ held, h = .fs (dev i) ∨ h = .table

def MinixLock.rank : MinixLock I D → Nat
  | .table => 0
  | .inner _ => 1
  | .fs _ => 2

omit [DecidableEq I] [DecidableEq D] in
theorem Before.rank_lt {h l : MinixLock I D} (hb : Before dev h l) :
    h.rank < l.rank := by
  cases h <;> cases l <;> simp_all [Before, MinixLock.rank]

def Outermost (held : List (MinixLock I D)) : Prop :=
  ∀ h ∈ held, h = .table

variable {dev} {held : List (MinixLock I D)}

omit [DecidableEq I] [DecidableEq D] in
theorem nests_inner (ho : Outermost held) (i : I) :
    .inner i ∉ held ∧ Nests dev held (.inner i) := by
  refine ⟨fun h => ?_, .inl fun h hh => ?_⟩
  · cases ho _ h
  · rw [ho h hh]
    trivial

omit [DecidableEq I] [DecidableEq D] in
theorem nests_fs (ho : Outermost held) (d : D) :
    .fs d ∉ held ∧ Nests dev held (.fs d) := by
  refine ⟨fun h => ?_, .inl fun h hh => ?_⟩
  · cases ho _ h
  · rw [ho h hh]
    trivial

omit [DecidableEq I] [DecidableEq D] in
theorem nests_inner_fs (ho : Outermost held) (i : I) :
    .fs (dev i) ∉ MinixLock.inner i :: held ∧
      Nests dev (.inner i :: held) (.fs (dev i)) := by
  refine ⟨fun h => ?_, .inl fun h hh => ?_⟩
  · rcases List.mem_cons.mp h with h | h
    · cases h
    · cases ho _ h
  · rcases List.mem_cons.mp hh with rfl | hh
    · rfl
    · rw [ho h hh]
      trivial

omit [DecidableEq I] [DecidableEq D] in
theorem nests_fs_inner (ho : Outermost held) (i : I) :
    .inner i ∉ MinixLock.fs (dev i) :: held ∧
      Nests dev (.fs (dev i) :: held) (.inner i) := by
  refine ⟨fun h => ?_, .inr ⟨i, rfl, List.mem_cons_self, fun h hh => ?_⟩⟩
  · rcases List.mem_cons.mp h with h | h
    · cases h
    · cases ho _ h
  · rcases List.mem_cons.mp hh with rfl | hh
    · exact .inl rfl
    · exact .inr (ho h hh)

-- ======== every script nests

theorem balanced_inner (ho : Outermost held) (i : I) :
    Balanced (Nests dev) held (locked (.inner i) []) :=
  .locked (nests_inner ho i) .nil

theorem balanced_fs (ho : Outermost held) (d : D) :
    Balanced (Nests dev) held (locked (.fs d) []) :=
  .locked (nests_fs ho d) .nil

theorem balanced_mapLevels (ho : Outermost held) (i : I) (create : Bool) :
    ∀ levels : List (Nat × Nat), Balanced (Nests dev) (.inner i :: held)
      (mapLevels (dev i) create levels) := by
  intro levels
  induction levels with
  | nil => exact .nil
  | cons level rest ih =>
    obtain ⟨found, fresh⟩ := level
    unfold mapLevels
    split
    next =>
      split
      next =>
        apply Balanced.append (.locked (nests_inner_fs ho i) .nil)
        split
        next => exact .nil
        next => exact ih
      next => exact .nil
    next => exact ih

theorem balanced_mapBlockId (ho : Outermost held) (i : I)
    (create upgrades : Bool) (levels : List (Nat × Nat)) :
    Balanced (Nests dev) held (mapBlockId dev i create upgrades levels) := by
  unfold mapBlockId
  split
  next =>
    exact .locked (nests_inner ho i) (balanced_mapLevels ho i create levels)
  next => exact .nil

theorem balanced_truncate (ho : Outermost held) (i : I) (upgrades : Bool) :
    Balanced (Nests dev) held (truncateScript dev i upgrades) := by
  unfold truncateScript
  split
  next =>
    exact .locked (nests_fs ho _) (.locked (nests_fs_inner ho i) .nil)
  next => exact .nil

theorem balanced_sync (ho : Outermost held) (i : I) (dirty upgrades : Bool) :
    Balanced (Nests dev) held (syncScript dev i dirty upgrades) := by
  apply Balanced.locked (nests_inner ho i)
  split
  next => exact .locked (nests_inner_fs ho i) .nil
  next => exact .nil

theorem balanced_flushSlot (ho : Outermost held) (i : I)
    (unlinked dirty upgrades : Bool) :
    Balanced (Nests dev) held (flushSlot dev i unlinked dirty upgrades) := by
  apply Balanced.append (balanced_inner ho i)
  split
  next =>
    apply Balanced.append (balanced_truncate ho i upgrades)
    split
    next => exact balanced_fs ho _
    next => exact .nil
  next =>
    split
    next => exact balanced_sync ho i dirty upgrades
    next => exact .nil

theorem balanced_flatMap {A : Type} {f : A → List (LockStep (MinixLock I D))}
    (hf : ∀ a, Balanced (Nests dev) held (f a)) :
    ∀ xs : List A, Balanced (Nests dev) held (xs.flatMap f) := by
  intro xs
  induction xs with
  | nil => exact .nil
  | cons a rest ih =>
    rw [List.flatMap_cons]
    exact (hf a).append ih

theorem balanced_acquireRaw (ho : Outermost held) (d : D) (scanned : List I)
    (victim : Option (I × Bool × Bool × Bool)) :
    Balanced (Nests dev) held (acquireRaw dev d scanned victim) := by
  apply Balanced.append
  · exact (balanced_fs ho d).append
      (balanced_flatMap (fun i => balanced_inner ho i) scanned)
  · cases victim with
    | none => exact .nil
    | some v => exact balanced_flushSlot ho _ _ _ _

/-- Every operation but `truncate` takes its locks downwards. -/
theorem minixScript_sound (op : MinixOp I D) :
    Sound (Nests dev) [] (minixScript dev op) := by
  have hnone : Outermost ([] : List (MinixLock I D)) := nofun
  have htable : Outermost ([.table] : List (MinixLock I D)) := by
    intro h hh
    exact List.mem_singleton.mp hh
  have hunder : ∀ {body : List (LockStep (MinixLock I D))},
      Balanced (Nests dev) [.table] body →
        Balanced (Nests dev) [] (locked .table body) := fun hbody =>
    .locked ⟨List.not_mem_nil, .inl nofun⟩ hbody
  apply Balanced.sound
  cases op with
  | mapBlockId i create upgrades levels =>
    exact balanced_mapBlockId hnone _ _ _ _
  | truncate i upgrades => exact balanced_truncate hnone _ _
  | sync i dirty upgrades => exact balanced_sync hnone _ _ _
  | syncInodes slots =>
    exact hunder (balanced_flatMap (fun _ => balanced_sync htable _ _ _) slots)
  | flushSlot i unlinked dirty upgrades =>
    exact hunder (balanced_flushSlot htable _ _ _ _)
  | acquireRaw d scanned victim =>
    exact hunder (balanced_acquireRaw htable _ _ _)
  | useInner i => exact balanced_inner hnone i
  | useFs d => exact balanced_fs hnone d

end Scripts

-- ======== the circle

section Circle

variable (dev : I → D)

/-- A `truncate` holds a file system and waits for an inode, and the
inode's holder waits for the file system. -/
def TruncateCircle (s : LockSt T (MinixLock I D)) : Prop :=
  ∃ t u i, s.waiting t = some (.inner i) ∧ s.owner (.fs (dev i)) = some t ∧
    s.owner (.inner i) = some u ∧ s.waiting u = some (.fs (dev i))

/-- A task that holds the file system of the inode it locks next, as in
`truncate`, finds the inode free. -/
def TruncateAlone (s : LockSt T (MinixLock I D))
    (a : LockTurn T (MinixOp I D)) : Prop :=
  ∀ t i rest, a = .turn t → s.todo t = .lock (.inner i) :: rest →
    s.owner (.fs (dev i)) = some t → s.owner (.inner i) = none

variable {dev}

omit [DecidableEq T] in
theorem waits_in_order {s : LockSt T (MinixLock I D)}
    (hs : s.Fits (Nests dev)) {t : T} {l h : MinixLock I D}
    (hw : s.waiting t = some l) (hown : s.owner h = some t) :
    Before dev h l ∨ ∃ i, l = .inner i ∧ s.owner (.fs (dev i)) = some t ∧
      (h = .fs (dev i) ∨ h = .table) := by
  obtain ⟨held, howns, hok⟩ := hs.waiting_ok hw
  have hh := (howns h).mp hown
  rcases hok with hall | ⟨i, hl, hfs, hall⟩
  · exact .inl (hall h hh)
  · exact .inr ⟨i, hl, (howns _).mpr hfs, hall h hh⟩

omit [DecidableEq T] in
/-- Tasks wait for each other in a circle exactly if a truncation is in it. -/
theorem cyclic_iff_truncate {s : LockSt T (MinixLock I D)}
    (hs : s.Fits (Nests dev)) : s.Cyclic ↔ TruncateCircle dev s := by
  constructor
  · intro hcyc
    obtain ⟨t₀, hcycle⟩ := hcyc
    obtain ⟨t, l, h, hself, hw, hown, hrank⟩ :=
      unordered_of_cycle MinixLock.rank hcycle
    obtain ⟨i, rfl, hfs, -⟩ := (waits_in_order hs hw hown).resolve_left
      fun hb => by
        have := hb.rank_lt
        omega
    obtain ⟨u, ⟨l', hw', hu⟩, hback⟩ := Relation.TransGen.head'_iff.mp hself
    rw [hw] at hw'
    cases hw'
    have hne : u ≠ t := by
      intro heq
      subst heq
      rcases waits_in_order hs hw hu with hb | ⟨j, -, -, hj | hj⟩
      · exact hb
      · cases hj
      · cases hj
    obtain ⟨v, ⟨k, hwk, -⟩, -⟩ :=
      (Relation.ReflTransGen.cases_head hback).resolve_left hne
    refine ⟨t, u, i, hw, hfs, hu, ?_⟩
    rcases waits_in_order hs hwk hu with hb | ⟨j, -, -, hj | hj⟩
    · cases k with
      | table => exact absurd hb id
      | inner j => exact absurd hb id
      | fs d => rw [hwk, show d = dev i from hb]
    · cases hj
    · cases hj
  · intro hc
    obtain ⟨t, u, i, hw, hfs, hin, hwu⟩ := hc
    exact ⟨t, .tail (.single ⟨_, hw, hin⟩) ⟨_, hwu, hfs⟩⟩

/-- Nobody waits for an inode while holding its file system. -/
def NoTruncateWaits (dev : I → D) (s : LockSt T (MinixLock I D)) : Prop :=
  ∀ t i, s.waiting t = some (.inner i) → s.owner (.fs (dev i)) ≠ some t

/-- A truncation that runs alone waits for nobody. -/
theorem NoTruncateWaits.step {s s' : LockSt T (MinixLock I D)}
    {a : LockTurn T (MinixOp I D)} (hno : NoTruncateWaits dev s)
    (hg : TruncateAlone dev s a)
    (h : s.step (minixScript dev) a = some s') : NoTruncateWaits dev s' := by
  intro u i hw
  rcases lock_step_cases h with ⟨t, op, -, -, rfl⟩ |
    ⟨t, l, rest, -, htodo, -, rfl⟩ |
    ⟨t, l, rest, holder, rfl, htodo, hheld, -, rfl⟩ |
    ⟨t, l, rest, -, -, -, rfl⟩
  · exact hno u i hw
  · -- the task that took a mutex is awake, and took no other's
    have hut : u ≠ t := by
      intro heq
      simp only [heq, update_self] at hw
      cases hw
    simp only [update_of_ne hut] at hw
    intro hown
    by_cases hl : .fs (dev i) = l
    · simp only [hl, update_self, Option.some.injEq] at hown
      exact hut hown.symm
    · simp only [update_of_ne hl] at hown
      exact hno u i hw hown
  · by_cases hut : u = t
    · subst hut
      simp only [update_self, Option.some.injEq] at hw
      subst hw
      intro hown
      have hfree := hg u i rest rfl htodo hown
      rw [hheld] at hfree
      cases hfree
    · simp only [update_of_ne hut] at hw
      exact hno u i hw
  · intro hown
    by_cases hl : .fs (dev i) = l
    · simp only [hl, update_self] at hown
      cases hown
    · simp only [update_of_ne hl] at hown
      exact hno u i hw hown

-- ======== the result

/-- Whenever tasks wait in a circle, one is a `truncate` that waits for
an inode whose holder waits for the file system; and no circle comes up
in a run in which each `truncate` finds the mutex of its inode free. -/
theorem minix_deadlock_iff (dev : I → D)
    (as : List (LockTurn T (MinixOp I D))) :
    (∀ s ∈ visited (LockSt.step (minixScript dev)) LockSt.new as,
      s.Cyclic ↔ TruncateCircle dev s) ∧
    (Guarded (LockSt.step (minixScript dev)) (TruncateAlone dev)
        LockSt.new as →
      ∀ s ∈ visited (LockSt.step (minixScript dev)) LockSt.new as,
        ¬ s.Cyclic) := by
  have hfits : ∀ s ∈ visited (LockSt.step (minixScript dev)) LockSt.new as,
      (s : LockSt T (MinixLock I D)).Fits (Nests dev) := by
    intro s hs
    refine Reachable.invariant (I := fun s => s.Fits (Nests dev))
      (LockSt.Fits.new (Nests dev)) ?_ (Reachable.of_visited .refl s hs)
    intro s a s' hI h
    exact hI.step minixScript_sound h
  constructor
  · intro s hs
    exact cyclic_iff_truncate (hfits s hs)
  · intro hg s hs hcyc
    have hno := Guarded.visited (I := fun s : LockSt T (MinixLock I D) =>
        s.Fits (Nests dev) ∧ NoTruncateWaits dev s)
      (fun s a s' hI hga h =>
        ⟨hI.1.step minixScript_sound h, hI.2.step hga h⟩)
      ⟨LockSt.Fits.new (Nests dev), nofun⟩ hg s hs
    obtain ⟨t, u, i, hw, hfs, -, -⟩ := (cyclic_iff_truncate hno.1).mp hcyc
    exact hno.2 t i hw hfs

/-- One file system with one inode: a `truncate`, and then a write that
allocates a block. -/
def truncateThenWrite : List (LockTurn Bool (MinixOp Unit Unit)) :=
  [.start false (.truncate () true),
    .start true (.mapBlockId () true true [(0, 7)]),
    .turn false, .turn false, .turn true, .turn false, .turn false,
    .turn true, .turn true, .turn true, .turn true]

/-- No circle comes up, although the write runs into the `truncate`. -/
theorem minix_deadlock_free_write :
    Guarded (LockSt.step (minixScript id)) (TruncateAlone id) LockSt.new
      truncateThenWrite ∧
    ∀ s ∈ visited (LockSt.step (minixScript id)) LockSt.new
      truncateThenWrite, ¬ s.Cyclic := by
  have hg : Guarded (LockSt.step (minixScript id)) (TruncateAlone id)
      LockSt.new truncateThenWrite := by
    refine ⟨?_, ?_, ?_, ?_, ?_, ?_, ?_, ?_, ?_, ?_, ?_, trivial⟩
    all_goals
      intro t i rest ht htodo hown
      cases i
      cases ht
    all_goals
      first
      | rfl
      | exact absurd hown (by decide)
      | cases htodo
  exact ⟨hg, (minix_deadlock_iff id truncateThenWrite).2 hg⟩

/-- The same two operations the other way round: `truncate` holds the
file system, the write holds the inode, and each waits for the other. -/
theorem truncate_deadlocks_with_write :
    ∃ s ∈ visited (LockSt.step (minixScript id)) LockSt.new
        [.start false (.truncate () true),
          .start true (.mapBlockId () true true [(0, 7)]),
          .turn false, .turn true, .turn false, .turn true],
      s.Cyclic := by
  refine ⟨_, mem_visited_of_run rfl, false, ?_⟩
  exact .tail (b := true) (.single ⟨.inner (), rfl, rfl⟩) ⟨.fs (), rfl, rfl⟩

end Circle

end LinuxRs.Fs
