/-
Writing to a pipe whose read ends are closed
(kernel/src/fs/file/pipe.rs, `write`).

# The law

`write` documents that it raises `SIGPIPE` and returns `Errno::PIPE` when
all readers are gone. The count of readers is looked at in one place only:
where the ring has no space. With space, the turn copies a chunk; with
nothing left to write, it returns before it looks; and with bytes written
by earlier turns it returns their number.

`write_without_readers` says which runs keep the law: those in which every
turn finds a full ring, bytes to write and none written before.
-/
import LinuxRs.Fs.Pipe

namespace LinuxRs.Fs

open LinuxRs.Lib LinuxRs.Sync

universe u

variable {T : Type u}

-- ======== no reader any more

/-- All read ends are closed: their count is zero, and no task is inside
`read`, as the file it reads from would be open. -/
structure PipeSys.ReadersGone (s : PipeSys T) : Prop where
  readers : s.pipe.readers = 0#32
  looping : ∀ t count output, s.frame t ≠ .looping (.read count output)
  asleep : ∀ t count output slot, s.frame t ≠ .asleep (.read count output) slot

def PipeAct.ofReader : PipeAct T → Bool
  | .read _ _ => true
  | .dropEnd isWrite => !isWrite
  | _ => false

def PipeAct.turnOf : PipeAct T → List T
  | .turn t => [t]
  | _ => []

/-- What is promised of the turns of `ts`, from `s` to `s'`: no byte is
accepted, and each turn ends its call with `SIGPIPE` and `EPIPE`. -/
structure PipeSys.Refused (s s' : PipeSys T) (ts : List T) : Prop where
  accepted : s'.accepted = s.accepted
  signalled : s'.signalled = ts.reverse ++ s.signalled
  results : s'.results
    = ts.reverse.map (fun t => (t, PipeResult.epipe)) ++ s.results

/-- The condition of an act: a turn finds the ring full, and a call that
has something to write and has written nothing. -/
def PipeSys.Refuses (s : PipeSys T) : PipeAct T → Prop
  | .turn t => s.pipe.space = 0
      ∧ ∃ input, input ≠ [] ∧ s.frame t = .looping (.write input 0)
  | _ => True

-- ======== what may be recorded

/-- The records from `s` to `s'` while `ts` take their turns: they only
grow, and a turn returns and raises once at most. -/
structure PipeSys.Grew (s s' : PipeSys T) (ts : List T) : Prop where
  accepted : s.accepted <+: s'.accepted
  signalled : ∃ new, s'.signalled = new ++ s.signalled ∧ new.length ≤ ts.length
  results : ∃ new, s'.results = new ++ s.results ∧ new.length ≤ ts.length

theorem PipeSys.Grew.same {s s' : PipeSys T}
    (haccepted : s'.accepted = s.accepted)
    (hsignalled : s'.signalled = s.signalled)
    (hresults : s'.results = s.results) (ts : List T) : s.Grew s' ts :=
  ⟨haccepted ▸ List.prefix_refl _, ⟨[], hsignalled, Nat.zero_le _⟩,
    ⟨[], hresults, Nat.zero_le _⟩⟩

theorem PipeSys.Grew.trans {s s₁ s' : PipeSys T} {ts ts' : List T}
    (h : s.Grew s₁ ts) (h' : s₁.Grew s' ts') : s.Grew s' (ts ++ ts') := by
  obtain ⟨new, hsignalled, hlen⟩ := h.signalled
  obtain ⟨new', hsignalled', hlen'⟩ := h'.signalled
  obtain ⟨res, hresults, hres⟩ := h.results
  obtain ⟨res', hresults', hres'⟩ := h'.results
  refine ⟨h.accepted.trans h'.accepted, ⟨new' ++ new, ?_, ?_⟩,
    ⟨res' ++ res, ?_, ?_⟩⟩
  · rw [hsignalled', hsignalled, List.append_assoc]
  · rw [List.length_append, List.length_append]
    omega
  · rw [hresults', hresults, List.append_assoc]
  · rw [List.length_append, List.length_append]
    omega

theorem split_of_length {α : Type u} {new new' part part' rest : List α}
    (hlen : new.length ≤ part.length) (hlen' : new'.length ≤ part'.length)
    (h : new' ++ (new ++ rest) = part' ++ (part ++ rest)) :
    new' = part' ∧ new = part := by
  rw [← List.append_assoc, ← List.append_assoc] at h
  have hparts := List.append_cancel_right h
  have htotal := congrArg List.length hparts
  rw [List.length_append, List.length_append] at htotal
  exact List.append_inj hparts (by omega)

theorem PipeSys.refused_append {s s₁ s' : PipeSys T} {ts ts' : List T}
    (h : s.Grew s₁ ts) (h' : s₁.Grew s' ts') :
    s.Refused s' (ts ++ ts') ↔ s.Refused s₁ ts ∧ s₁.Refused s' ts' := by
  constructor
  · intro hr
    obtain ⟨new, hsignalled, hlen⟩ := h.signalled
    obtain ⟨new', hsignalled', hlen'⟩ := h'.signalled
    obtain ⟨res, hresults, hres⟩ := h.results
    obtain ⟨res', hresults', hres'⟩ := h'.results
    have haccepted : s₁.accepted = s.accepted := by
      have hbytes := h'.accepted
      rw [hr.accepted] at hbytes
      exact hbytes.eq_of_length_le h.accepted.length_le
    have hsplit := hr.signalled
    rw [hsignalled', hsignalled, List.reverse_append, List.append_assoc]
      at hsplit
    obtain ⟨rfl, rfl⟩ := split_of_length (by rwa [List.length_reverse])
      (by rwa [List.length_reverse]) hsplit
    have hsplit' := hr.results
    rw [hresults', hresults, List.reverse_append, List.map_append,
      List.append_assoc] at hsplit'
    obtain ⟨rfl, rfl⟩ := split_of_length
      (by rwa [List.length_map, List.length_reverse])
      (by rwa [List.length_map, List.length_reverse]) hsplit'
    exact ⟨⟨haccepted, hsignalled, hresults⟩,
      ⟨hr.accepted.trans haccepted.symm, hsignalled', hresults'⟩⟩
  · intro hr
    obtain ⟨hr, hr'⟩ := hr
    refine ⟨hr'.accepted.trans hr.accepted, ?_, ?_⟩
    · rw [hr'.signalled, hr.signalled, List.reverse_append, List.append_assoc]
    · rw [hr'.results, hr.results, List.reverse_append, List.map_append,
        List.append_assoc]

-- ======== one step

theorem PipeState.writeChunk_eq_nil {s : PipeState} (h : s.InPage)
    {rest : List UInt8} (hrest : rest ≠ []) :
    (s.writeChunk rest).1 = [] ↔ s.space = 0 := by
  have hhead := h.head
  have hlen := List.length_pos_iff.mpr hrest
  by_cases hspace : s.space = 0
  · refine ⟨fun _ => hspace, fun _ => ?_⟩
    unfold PipeState.writeChunk
    rw [if_pos hspace]
  · refine ⟨fun hnil => ?_, fun h => absurd h hspace⟩
    unfold PipeState.writeChunk at hnil
    rw [if_neg hspace] at hnil
    have hzero := congrArg List.length hnil
    rw [List.length_take, List.length_nil] at hzero
    omega

theorem PipeState.writeChunk_full {s : PipeState} (h : s.space = 0)
    (rest : List UInt8) :
    s.writeChunk rest = ([], decide (s.readers = 0#32), s) :=
  if_pos h

section
variable [DecidableEq T]

/-- With no reader left a turn of `write` fills the pipe, or is refused if
there is no room. -/
theorem PipeSys.writeTurn_gone {s : PipeSys T} (h : s.pipe.InPage)
    (hgone : s.ReadersGone) (t : T) (input : List UInt8) (total : Nat) :
    s.Grew (s.writeTurn t input total) [t]
      ∧ (s.Refused (s.writeTurn t input total) [t]
        ↔ s.pipe.space = 0 ∧ input ≠ [] ∧ total = 0) := by
  unfold PipeSys.writeTurn
  by_cases hmore : total < input.length
  · rw [if_pos hmore]
    have hinput : input ≠ [] :=
      List.length_pos_iff.mp (Nat.zero_lt_of_lt hmore)
    have hrest : input.drop total ≠ [] := by
      apply List.length_pos_iff.mp
      rw [List.length_drop]
      omega
    have hnil := PipeState.writeChunk_eq_nil h hrest
    by_cases hspace : s.pipe.space = 0
    · -- a full ring: the readers are looked at, and there are none
      rw [PipeState.writeChunk_full hspace, hgone.readers]
      simp only [List.length_nil, Nat.lt_irrefl, if_false, decide_true,
        if_true]
      refine ⟨⟨List.prefix_refl _, ⟨[t], rfl, Nat.le_refl _⟩,
        ⟨[_], rfl, Nat.le_refl _⟩⟩, ⟨fun hr => ⟨hspace, hinput, ?_⟩, ?_⟩⟩
      · have hresult : (if 0 < total then PipeResult.written total
            else .epipe) = .epipe := by
          have hhead := List.append_cancel_right
            (show [(t, _)] ++ s.results = [(t, _)] ++ s.results
              from hr.results)
          exact congrArg Prod.snd (List.head_eq_of_cons_eq hhead)
        by_contra hne
        rw [if_pos (Nat.pos_of_ne_zero hne)] at hresult
        cases hresult
      · intro hcond
        obtain ⟨-, -, rfl⟩ := hcond
        exact ⟨rfl, rfl, rfl⟩
    · -- space: a chunk is accepted
      have hchunk := fun hc => hspace (hnil.mp hc)
      generalize s.pipe.writeChunk (input.drop total) = res at hchunk ⊢
      obtain ⟨chunk, noReaders, pipe⟩ := res
      have hpos : 0 < chunk.length := List.length_pos_iff.mpr hchunk
      simp only [if_pos hpos]
      refine ⟨⟨List.prefix_append _ _, ⟨[], rfl, Nat.zero_le _⟩,
        ⟨[], rfl, Nat.zero_le _⟩⟩, ⟨fun hr => ?_, fun hcond => ?_⟩⟩
      · have hlen := congrArg List.length hr.accepted
        simp only [List.length_append] at hlen
        omega
      · exact absurd hcond.1 hspace
  · -- nothing is left: the call returns before the readers are looked at
    rw [if_neg hmore]
    refine ⟨⟨List.prefix_refl _, ⟨[], rfl, Nat.zero_le _⟩,
      ⟨[_], rfl, Nat.le_refl _⟩⟩, ⟨fun hr => ?_, fun hcond => ?_⟩⟩
    · have hlen := congrArg List.length hr.signalled
      simp only [List.length_append, List.length_reverse,
        List.length_singleton] at hlen
      have hlen : s.signalled.length = 1 + s.signalled.length := hlen
      omega
    · obtain ⟨-, hinput, rfl⟩ := hcond
      exact absurd (List.length_pos_iff.mpr hinput) hmore

theorem PipeSys.ReadersGone.update {s s' : PipeSys T} (h : s.ReadersGone)
    (hreaders : s'.pipe.readers = s.pipe.readers) {t : T} {f : PipeFrame T}
    (hframe : s'.frame = Function.update s.frame t f)
    (hlooping : ∀ count output, f ≠ .looping (.read count output))
    (hasleep : ∀ count output slot, f ≠ .asleep (.read count output) slot) :
    s'.ReadersGone := by
  refine ⟨hreaders.trans h.readers, fun u count output => ?_,
    fun u count output slot => ?_⟩
  · rw [hframe]
    by_cases hu : u = t
    · subst hu
      rw [Function.update_self]
      exact hlooping count output
    · rw [Function.update_of_ne hu]
      exact h.looping u count output
  · rw [hframe]
    by_cases hu : u = t
    · subst hu
      rw [Function.update_self]
      exact hasleep count output slot
    · rw [Function.update_of_ne hu]
      exact h.asleep u count output slot

theorem PipeState.writeChunk_readers (s : PipeState) (rest : List UInt8) :
    (s.writeChunk rest).2.2.readers = s.readers := by
  unfold PipeState.writeChunk
  split <;> rfl

theorem PipeSys.ReadersGone.writeTurn {s : PipeSys T} (h : s.pipe.InPage)
    (hgone : s.ReadersGone) (t : T) (input : List UInt8) (total : Nat) :
    (s.writeTurn t input total).pipe.InPage
      ∧ (s.writeTurn t input total).ReadersGone := by
  have hin := (PipeState.writeChunk_spec h (input.drop total)).1
  have hreaders := s.pipe.writeChunk_readers (input.drop total)
  unfold PipeSys.writeTurn
  generalize s.pipe.writeChunk (input.drop total) = res at hin hreaders ⊢
  obtain ⟨chunk, noReaders, pipe⟩ := res
  dsimp only at hin hreaders ⊢
  split_ifs
  · refine ⟨hin, hgone.update hreaders rfl ?_ ?_⟩
    · exact nofun
    · exact nofun
  all_goals
    refine ⟨h, hgone.update rfl rfl ?_ ?_⟩
    · exact nofun
    · exact nofun

/-- Once gone, the readers stay gone. -/
theorem PipeSys.ReadersGone.step {s s' : PipeSys T} (h : s.pipe.InPage)
    (hgone : s.ReadersGone) {a : PipeAct T} (ha : a.ofReader = false)
    (hstep : s.step a = some s') : s'.pipe.InPage ∧ s'.ReadersGone := by
  cases a with
  | read t count => cases ha
  | write t input =>
    simp only [PipeSys.step, Option.ite_none_right_eq_some,
      Option.some.injEq] at hstep
    obtain ⟨-, rfl⟩ := hstep
    refine ⟨h, hgone.update rfl rfl ?_ ?_⟩
    · exact fun _ _ hf => by cases hf
    · exact fun _ _ _ hf => by cases hf
  | turn t =>
    simp only [PipeSys.step] at hstep
    split at hstep
    next call hcall =>
      injection hstep with hstep
      subst hstep
      cases call with
      | read count output => exact absurd hcall (hgone.looping t _ _)
      | write input total => exact hgone.writeTurn h t input total
    next => cases hstep
  | resume t =>
    simp only [PipeSys.step] at hstep
    split at hstep
    next call slot hcall =>
      simp only [Option.ite_none_right_eq_some, Option.some.injEq] at hstep
      obtain ⟨-, rfl⟩ := hstep
      refine ⟨h, hgone.update rfl rfl (fun count output hf => ?_) ?_⟩
      · cases hf
        exact hgone.asleep t _ _ _ hcall
      · exact fun _ _ _ hf => by cases hf
    next => cases hstep
  | dropEnd isWrite =>
    cases isWrite with
    | true =>
      injection hstep with hstep
      subst hstep
      exact ⟨⟨h.head, h.tail⟩, hgone.readers, hgone.looping, hgone.asleep⟩
    | false => cases ha
  | elsewhere t st =>
    simp only [PipeSys.step, Option.ite_none_right_eq_some,
      Option.some.injEq] at hstep
    obtain ⟨-, rfl⟩ := hstep
    exact ⟨h, hgone.readers, hgone.looping, hgone.asleep⟩

/-- Each turn of a writer is refused exactly if the pipe was full. -/
theorem PipeSys.step_gone {s s' : PipeSys T} (h : s.pipe.InPage)
    (hgone : s.ReadersGone) {a : PipeAct T} (ha : a.ofReader = false)
    (hstep : s.step a = some s') :
    s.Grew s' a.turnOf ∧ (s.Refused s' a.turnOf ↔ s.Refuses a) := by
  have hstays : s'.accepted = s.accepted → s'.signalled = s.signalled →
      s'.results = s.results → s.Grew s' [] ∧ (s.Refused s' [] ↔ True) := by
    intro haccepted hsignalled hresults
    exact ⟨.same haccepted hsignalled hresults [],
      iff_of_true ⟨haccepted, hsignalled, hresults⟩ trivial⟩
  cases a with
  | read t count => cases ha
  | write t input =>
    simp only [PipeSys.step, Option.ite_none_right_eq_some,
      Option.some.injEq] at hstep
    obtain ⟨-, rfl⟩ := hstep
    exact hstays rfl rfl rfl
  | turn t =>
    simp only [PipeSys.step] at hstep
    split at hstep
    next call hcall =>
      injection hstep with hstep
      subst hstep
      cases call with
      | read count output => exact absurd hcall (hgone.looping t _ _)
      | write input total =>
        obtain ⟨hgrew, hiff⟩ :=
          PipeSys.writeTurn_gone h hgone t input total
        refine ⟨hgrew, hiff.trans ⟨fun hcond => ?_, fun hcond => ?_⟩⟩
        · obtain ⟨hspace, hinput, rfl⟩ := hcond
          exact ⟨hspace, input, hinput, hcall⟩
        · obtain ⟨hspace, input', hinput, hcall'⟩ := hcond
          rw [hcall] at hcall'
          cases hcall'
          exact ⟨hspace, hinput, rfl⟩
    next => cases hstep
  | resume t =>
    simp only [PipeSys.step] at hstep
    split at hstep
    next call slot hcall =>
      simp only [Option.ite_none_right_eq_some, Option.some.injEq] at hstep
      obtain ⟨-, rfl⟩ := hstep
      exact hstays rfl rfl rfl
    next => cases hstep
  | dropEnd isWrite =>
    injection hstep with hstep
    subst hstep
    exact hstays rfl rfl rfl
  | elsewhere t st =>
    simp only [PipeSys.step, Option.ite_none_right_eq_some,
      Option.some.injEq] at hstep
    obtain ⟨-, rfl⟩ := hstep
    exact hstays rfl rfl rfl

-- ======== the result

/-- Once no read end is open: in a run of the tasks that are left, every
turn of a write ends its call with `SIGPIPE` and `EPIPE` and nothing is
accepted, if and only if every turn finds the ring full, and a call with
bytes to write and none written. -/
theorem write_without_readers {s s' : PipeSys T} (h : s.pipe.InPage)
    (hgone : s.ReadersGone) {acts : List (PipeAct T)}
    (hacts : ∀ a ∈ acts, a.ofReader = false)
    (hrun : run PipeSys.step s acts = some s') :
    s.Refused s' (acts.flatMap PipeAct.turnOf)
      ↔ Guarded PipeSys.step PipeSys.Refuses s acts := by
  suffices hboth : s.Grew s' (acts.flatMap PipeAct.turnOf)
      ∧ (s.Refused s' (acts.flatMap PipeAct.turnOf)
        ↔ Guarded PipeSys.step PipeSys.Refuses s acts) from hboth.2
  induction acts generalizing s with
  | nil =>
    cases hrun
    exact ⟨.same rfl rfl rfl [], iff_of_true ⟨rfl, rfl, rfl⟩ trivial⟩
  | cons a acts ih =>
    obtain ⟨s₁, hstep, hrun⟩ := Option.bind_eq_some_iff.mp hrun
    have ha := hacts a List.mem_cons_self
    obtain ⟨hin, hgone₁⟩ := hgone.step h ha hstep
    obtain ⟨hgrew, hiff⟩ := PipeSys.step_gone h hgone ha hstep
    obtain ⟨hgrew', hiff'⟩ := ih hin hgone₁
      (fun b hb => hacts b (List.mem_cons_of_mem _ hb)) hrun
    rw [List.flatMap_cons]
    refine ⟨hgrew.trans hgrew', (PipeSys.refused_append hgrew hgrew').trans ?_⟩
    rw [hiff, hiff', Guarded.cons_iff hstep]

/-- One task and a pipe without readers, its ring filled up to `head`. -/
def readerless (head : Nat) : PipeSys Unit where
  pipe := ⟨fun _ => 0, head, 0, 0#32, 1#32⟩
  wait := WaitQueue.new
  state := fun _ => .running
  frame := fun _ => .outside
  signalled := []
  results := []
  handed := []
  accepted := []

omit [DecidableEq T] in
theorem readersGone_readerless (head : Nat) : (readerless head).ReadersGone := by
  refine ⟨rfl, fun t count output h => ?_, fun t count output slot h => ?_⟩
  · cases h
  · cases h

/-- A write to a full ring. -/
theorem write_without_readers_full :
    ∃ s, run PipeSys.step (readerless 4095) [.write () [7], .turn ()] = some s
      ∧ (readerless 4095).Refused s [()] := by
  have hin : (readerless 4095).pipe.InPage := ⟨by decide, by decide⟩
  obtain ⟨s, hs⟩ : ∃ s, run PipeSys.step (readerless 4095)
      [.write () [7], .turn ()] = some s := ⟨_, rfl⟩
  refine ⟨s, hs, (write_without_readers hin (readersGone_readerless 4095)
    (by decide) hs).mpr ?_⟩
  exact ⟨trivial, ⟨by decide, [7], by decide, rfl⟩, trivial⟩

omit [DecidableEq T] in
/-- A write to an empty ring: the byte is accepted, the call returns its
number at the next turn, and no signal is raised. -/
theorem readerless_write_accepted : ∃ s, run PipeSys.step (readerless 0)
        [.write () [7], .turn (), .turn ()] = some s
      ∧ s.accepted = [7] ∧ s.signalled = []
      ∧ s.results = [((), .written 1)]
      ∧ ¬ (readerless 0).Refused s [(), ()] := by
  refine ⟨_, rfl, rfl, rfl, rfl, fun h => ?_⟩
  cases h.accepted

end

end LinuxRs.Fs
