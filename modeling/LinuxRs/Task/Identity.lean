/-
User and group identity: `setuid`, `setreuid`, `setgid` and `setregid`
(kernel/src/syscall/handler/process/identity.rs).

# What confines a task

A task without effective superuser identity can only move its real and
effective ids among those it already has. Each call is checked against
the ids of its own moment, so the set of ids a task holds never grows,
and `Confined` is kept from call to call.

# What does not

The check knows no past: a task whose real or saved user id is 0 may make
its effective id 0 (an argument of 0 means no change, but the argument is
cut to 16 bits, and 65536 is 0), and is the superuser from then on.
-/
import LinuxRs.Lib.Run

namespace LinuxRs.Task

open LinuxRs.Lib

-- ======== the calls

structure TaskIdentityInfo where
  uid : BitVec 16
  euid : BitVec 16
  suid : BitVec 16
  gid : BitVec 16
  egid : BitVec 16
  sgid : BitVec 16
  deriving DecidableEq

inductive IdentityErrno
  | perm

namespace TaskIdentityInfo

def isSuperuser (id : TaskIdentityInfo) : Bool := id.euid = 0#16

def setUid (id : TaskIdentityInfo) (ruid : BitVec 32) : TaskIdentityInfo :=
  if 0#32 < ruid then { id with uid := ruid.setWidth 16 } else id

def setGid (id : TaskIdentityInfo) (rgid : BitVec 32) : TaskIdentityInfo :=
  if 0#32 < rgid then { id with gid := rgid.setWidth 16 } else id

/-- The second half of `sys_setreuid_impl`, with the real id already set. -/
def setEuid (id : TaskIdentityInfo) (superuser : Bool) (oldRuid : BitVec 16)
    (euid : BitVec 32) : Except IdentityErrno Unit × TaskIdentityInfo :=
  if 0#32 < euid then
    if oldRuid = euid.setWidth 16 ∨ id.euid = euid.setWidth 16 ∨
        id.suid = euid.setWidth 16 ∨ superuser then
      if superuser then
        (.ok (), { id with euid := euid.setWidth 16, suid := euid.setWidth 16 })
      else (.ok (), { id with euid := euid.setWidth 16 })
    else (.error .perm, { id with uid := oldRuid })
  else (.ok (), id)

/-- The second half of `sys_setregid_impl`. Unlike its sibling it does not
put the real id back. -/
def setEgid (id : TaskIdentityInfo) (superuser : Bool) (egid : BitVec 32) :
    Except IdentityErrno Unit × TaskIdentityInfo :=
  if 0#32 < egid then
    if id.gid = egid.setWidth 16 ∨ id.egid = egid.setWidth 16 ∨
        id.sgid = egid.setWidth 16 ∨ superuser then
      (.ok (), { id with egid := egid.setWidth 16 })
    else (.error .perm, id)
  else (.ok (), id)

/-- `sys_setreuid_impl`; the identity is left as the second component says,
also on an error. -/
def setreuidImpl (id : TaskIdentityInfo) (ruid euid : BitVec 32) :
    Except IdentityErrno Unit × TaskIdentityInfo :=
  if 0#32 < ruid ∧ ¬ (id.euid = ruid.setWidth 16 ∨ id.uid = ruid.setWidth 16 ∨
      id.isSuperuser) then (.error .perm, id)
  else (id.setUid ruid).setEuid id.isSuperuser id.uid euid

def setregidImpl (id : TaskIdentityInfo) (rgid egid : BitVec 32) :
    Except IdentityErrno Unit × TaskIdentityInfo :=
  if 0#32 < rgid ∧ ¬ (id.gid = rgid.setWidth 16 ∨ id.isSuperuser) then
    (.error .perm, id)
  else (id.setGid rgid).setEgid id.isSuperuser egid

end TaskIdentityInfo

/-- The calls that change an identity. -/
inductive IdentityCall
  | setuid (uid : BitVec 32)
  | setreuid (ruid euid : BitVec 32)
  | setgid (gid : BitVec 32)
  | setregid (rgid egid : BitVec 32)

def IdentityCall.apply (id : TaskIdentityInfo) :
    IdentityCall → Except IdentityErrno Unit × TaskIdentityInfo
  | .setuid uid => id.setreuidImpl uid uid
  | .setreuid ruid euid => id.setreuidImpl ruid euid
  | .setgid gid => id.setregidImpl gid gid
  | .setregid rgid egid => id.setregidImpl rgid egid

def identityStep (id : TaskIdentityInfo) (call : IdentityCall) :
    Option TaskIdentityInfo :=
  some (call.apply id).2

-- ======== confinement

namespace TaskIdentityInfo

variable {id id' start : TaskIdentityInfo}

def users (id : TaskIdentityInfo) : List (BitVec 16) := [id.uid, id.euid, id.suid]

def groups (id : TaskIdentityInfo) : List (BitVec 16) := [id.gid, id.egid, id.sgid]

/-- No id but those there were at the start. -/
structure Confined (start id : TaskIdentityInfo) : Prop where
  users : ∀ u ∈ id.users, u ∈ start.users
  groups : ∀ g ∈ id.groups, g ∈ start.groups

theorem Confined.refl (id : TaskIdentityInfo) : Confined id id :=
  ⟨fun _ h => h, fun _ h => h⟩

theorem Confined.trans (h : Confined start id) (h' : Confined id id') :
    Confined start id' :=
  ⟨fun u hu => h.users u (h'.users u hu), fun g hg => h.groups g (h'.groups g hg)⟩

theorem setUid_eq (id : TaskIdentityInfo) (ruid : BitVec 32) :
    id.setUid ruid = { id with uid := (id.setUid ruid).uid } := by
  unfold setUid
  split <;> rfl

theorem setreuidImpl_error {ruid euid : BitVec 32} {e : IdentityErrno}
    (h : id.setreuidImpl ruid euid = (.error e, id')) : id' = id := by
  unfold setreuidImpl at h
  split at h
  next => exact (Prod.mk.inj h).2.symm
  next =>
    rw [setUid_eq] at h
    unfold setEuid at h
    split at h
    next =>
      split at h
      next => split at h <;> cases (Prod.mk.inj h).1
      next => exact (Prod.mk.inj h).2.symm
    next => cases (Prod.mk.inj h).1

theorem setregidImpl_error {rgid egid : BitVec 32} {e : IdentityErrno}
    (h : id.setregidImpl rgid egid = (.error e, id')) : id' = id := by
  unfold setregidImpl at h
  split at h
  next => exact (Prod.mk.inj h).2.symm
  next hreal =>
    unfold setEgid at h
    split at h
    next =>
      split at h
      next => cases (Prod.mk.inj h).1
      next heff =>
        obtain rfl := (Prod.mk.inj h).2
        unfold setGid
        split
        next hpos =>
          have hsame : id.gid = rgid.setWidth 16 := by
            by_contra hne
            refine hreal ⟨hpos, fun hallow => ?_⟩
            rcases hallow with heq | hsuper
            · exact hne heq
            · exact heff (.inr (.inr (.inr hsuper)))
          rw [← hsame]
        next => rfl
    next => cases (Prod.mk.inj h).1

theorem setUid_mem {ruid : BitVec 32} (h : id.isSuperuser = false)
    (hallow : ¬ (0#32 < ruid ∧ ¬ (id.euid = ruid.setWidth 16 ∨
      id.uid = ruid.setWidth 16 ∨ id.isSuperuser))) :
    (id.setUid ruid).uid ∈ id.users := by
  unfold setUid
  split
  next hpos =>
    rcases not_not.mp (fun hno => hallow ⟨hpos, hno⟩) with heq | heq | hsuper
    · simp [users, ← heq]
    · simp [users, ← heq]
    · rw [h] at hsuper
      cases hsuper
  next => simp [users]

/-- Without privileges the user ids stay among the ones there were. -/
theorem setreuidImpl_confined (h : id.isSuperuser = false)
    (ruid euid : BitVec 32) : Confined id (id.setreuidImpl ruid euid).2 := by
  unfold setreuidImpl
  split
  next => exact .refl id
  next hallow =>
    have huid := setUid_mem h hallow
    rw [setUid_eq, h]
    generalize (id.setUid ruid).uid = u at huid ⊢
    have hreal : Confined id { id with uid := u } := by
      refine ⟨fun w hw => ?_, fun g hg => hg⟩
      simp only [users, List.mem_cons, List.not_mem_nil, or_false] at hw
      rcases hw with rfl | rfl | rfl
      · exact huid
      · simp [users]
      · simp [users]
    unfold setEuid
    split
    next =>
      split
      next hwho =>
        refine ⟨fun w hw => ?_, fun g hg => hg⟩
        simp only [Bool.false_eq_true, if_false, users, List.mem_cons,
          List.not_mem_nil, or_false] at hw
        rcases hw with rfl | rfl | rfl
        · exact huid
        · -- the effective id is one that the check compared it with
          rcases hwho with heq | heq | heq | hsuper
          · simp [users, ← heq]
          · simp [users, ← heq]
          · simp [users, ← heq]
          · cases hsuper
        · simp [users]
      next => exact .refl id
    next => exact hreal

/-- Without privileges the group ids stay among the ones there were. -/
theorem setregidImpl_confined (h : id.isSuperuser = false)
    (rgid egid : BitVec 32) : Confined id (id.setregidImpl rgid egid).2 := by
  unfold setregidImpl
  split
  next => exact .refl id
  next hallow =>
    -- the real id was allowed because it is the same
    have hsame : id.setGid rgid = id := by
      unfold setGid
      split
      next hpos =>
        rcases not_not.mp (fun hno => hallow ⟨hpos, hno⟩) with heq | hsuper
        · rw [← heq]
        · rw [h] at hsuper
          cases hsuper
      next => rfl
    rw [hsame, h]
    unfold setEgid
    split
    next =>
      split
      next hwho =>
        refine ⟨fun u hu => hu, fun g hg => ?_⟩
        simp only [groups, List.mem_cons, List.not_mem_nil, or_false] at hg
        rcases hg with rfl | rfl | rfl
        · simp [groups]
        · rcases hwho with heq | heq | heq | hsuper
          · simp [groups, ← heq]
          · simp [groups, ← heq]
          · simp [groups, ← heq]
          · cases hsuper
        · simp [groups]
      next => exact .refl id
    next => exact .refl id

end TaskIdentityInfo

-- ======== runs

open TaskIdentityInfo

theorem IdentityCall.confined {id : TaskIdentityInfo}
    (h : id.isSuperuser = false) (call : IdentityCall) :
    Confined id (call.apply id).2 := by
  cases call with
  | setuid uid => exact setreuidImpl_confined h uid uid
  | setreuid ruid euid => exact setreuidImpl_confined h ruid euid
  | setgid gid => exact setregidImpl_confined h gid gid
  | setregid rgid egid => exact setregidImpl_confined h rgid egid

theorem IdentityCall.atomic {id id' : TaskIdentityInfo} {call : IdentityCall}
    {e : IdentityErrno} (h : call.apply id = (.error e, id')) : id' = id := by
  cases call with
  | setuid uid => exact setreuidImpl_error h
  | setreuid ruid euid => exact setreuidImpl_error h
  | setgid gid => exact setregidImpl_error h
  | setregid rgid egid => exact setregidImpl_error h

def Unprivileged (id : TaskIdentityInfo) (_ : IdentityCall) : Prop :=
  id.isSuperuser = false

theorem unprivileged_of_users {start : TaskIdentityInfo}
    (h : 0#16 ∉ start.users) (calls : List IdentityCall) :
    Guarded identityStep Unprivileged start calls := by
  induction calls generalizing start with
  | nil => trivial
  | cons call calls ih =>
    have huser : start.isSuperuser = false := by
      apply decide_eq_false
      intro hzero
      exact h (by simp [users, hzero])
    refine ⟨huser, ih fun hmem => h ?_⟩
    exact (call.confined huser).users _ hmem

/-- In every run of calls that are made without effective superuser
identity, all six ids stay among those held at the start; and a call that
returns an error changes none of them. -/
theorem identity_confined {start : TaskIdentityInfo}
    {calls : List IdentityCall}
    (h : Guarded identityStep Unprivileged start calls) :
    ∀ id ∈ visited identityStep start calls, Confined start id ∧
      ∀ call e id', IdentityCall.apply id call = (.error e, id') →
        id' = id := by
  intro id hid
  refine ⟨?_, fun call e id' herr => IdentityCall.atomic herr⟩
  refine h.visited (fun s call s' hs huser hstep => ?_) (.refl start) id hid
  cases hstep
  exact hs.trans (call.confined huser)

/-- A set-user-id program of user 7, run by user 9, gives its identity up
and takes it back. -/
theorem identity_confined_saved :
    (run identityStep ⟨9#16, 7#16, 7#16, 4#16, 4#16, 4#16⟩
      [.setreuid 0#32 9#32, .setreuid 0#32 7#32]
      = some ⟨9#16, 7#16, 7#16, 4#16, 4#16, 4#16⟩) ∧
    ∀ id ∈ visited identityStep ⟨9#16, 7#16, 7#16, 4#16, 4#16, 4#16⟩
        [.setreuid 0#32 9#32, .setreuid 0#32 7#32],
      Confined ⟨9#16, 7#16, 7#16, 4#16, 4#16, 4#16⟩ id := by
  refine ⟨by decide, fun id hid => ?_⟩
  exact (identity_confined (unprivileged_of_users (by decide) _) id hid).1

/-- A set-user-id program of user 7, run by the superuser, becomes the
superuser again and then user 5. -/
theorem identity_regains_root :
    ∃ id, run identityStep ⟨0#16, 7#16, 7#16, 4#16, 4#16, 4#16⟩
        [.setreuid 0#32 65536#32, .setuid 5#32] = some id ∧
      ¬ Confined ⟨0#16, 7#16, 7#16, 4#16, 4#16, 4#16⟩ id := by
  refine ⟨⟨5#16, 5#16, 5#16, 4#16, 4#16, 4#16⟩, by decide, fun h => ?_⟩
  exact absurd (h.users 5#16 (by decide)) (by decide)

end LinuxRs.Task
