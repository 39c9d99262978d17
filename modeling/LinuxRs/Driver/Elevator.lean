/-
The request queues keep their shape, and the elevator sweeps once up
before it starts again.

# What a step does to the chains

Four of the steps leave every chain alone; `addRequest` inserts one
slot into one chain at the elevator's place (`addRequest_spec`), and
`completeCurrent` drops one head (`takeCurrentRequest_spec`). Both
specifications are about the same list of lists, so the shape of all
seven queues is carried by one structure, `QueueShape`.

# The order

`seekOrder` compares first sectors. It never changes while a request is
in the pool, so `Sweep.once` survives the driver's progress for free;
the work is at the insertion, where the code compares next sectors
instead: `inOrder_eq_seekOrder` shows that this makes no difference for
unfinished requests on disjoint ranges.
-/
import LinuxRs.Driver.Block

namespace LinuxRs.Driver

open LinuxRs.Lib
open Function (update update_self update_of_ne update_eq_self)

variable {K B : Type}

-- ======== vocabulary

def BlockManager.head (m : BlockManager K B)
    (q : Fin blockDeviceSlotCount) : Option RequestId :=
  (m.queues q).bind (·.currentRequest)

def RequestPool.inOrder (pool : RequestPool B) (a b : RequestId) : Bool :=
  match pool a, pool b with
  | some l, some r => requestInOrder l r
  | _, _ => false

theorem RequestPool.inOrder_eq {pool : RequestPool B} {a b : RequestId}
    {l r : BlockRequest B} (hl : pool a = some l) (hr : pool b = some r) :
    pool.inOrder a b = requestInOrder l r := by
  simp only [inOrder, hl, hr]

/-- The chains behind the seven heads: finite, without repetition,
pairwise disjoint, and together the occupied slots. -/
structure QueueShape (m : BlockManager K B)
    (chains : Fin blockDeviceSlotCount → List RequestId) : Prop where
  follows : ∀ q, Follows m.pool.next (m.head q) (chains q)
  nodup : ∀ q, (chains q).Nodup
  disjoint : ∀ q q', q ≠ q' → (chains q).Disjoint (chains q')
  occupied : ∀ i, (m.pool i).isSome ↔ ∃ q, i ∈ chains q

def BlockRequest.unlinked (r : BlockRequest B) : BlockRequest B :=
  { r with nextRequest := none }

/-- The pools hold the same requests, in whatever order. -/
def SameRequests (p p' : RequestPool B) : Prop :=
  ∀ i, (p' i).map (·.unlinked) = (p i).map (·.unlinked)

-- ======== the links

theorem SameRequests.isSome {p p' : RequestPool B}
    (h : SameRequests p p') (i : RequestId) :
    (p' i).isSome = (p i).isSome := by
  rw [← Option.isSome_map, h i, Option.isSome_map]

theorem SameRequests.get {p p' : RequestPool B} (h : SameRequests p p')
    {i : RequestId} {r' : BlockRequest B} (hr : p' i = some r') :
    ∃ r, p i = some r ∧ r'.io = r.io ∧ r'.progress = r.progress := by
  have hi := h i
  rw [hr] at hi
  cases hp : p i with
  | none => simp [hp] at hi
  | some r =>
    simp only [hp, Option.map_some, Option.some.injEq] at hi
    refine ⟨r, rfl, ?_, ?_⟩
    · simpa [BlockRequest.unlinked] using congrArg (·.io) hi
    · simpa [BlockRequest.unlinked] using congrArg (·.progress) hi

theorem SameRequests.inOrder {p p' : RequestPool B}
    (h : SameRequests p p') : p'.inOrder = p.inOrder := by
  have key : ∀ (p : RequestPool B) (a b : RequestId),
      p.inOrder a b = RequestPool.inOrder
        (fun i => (p i).map (·.unlinked)) a b := by
    intro p a b
    simp only [RequestPool.inOrder]
    cases p a <;> cases p b <;> rfl
  funext a b
  rw [key p', key p]
  simp only [RequestPool.inOrder]
  rw [h a, h b]

theorem SameRequests.trans {p p' p'' : RequestPool B}
    (h : SameRequests p p') (h' : SameRequests p' p'') :
    SameRequests p p'' :=
  fun i => (h' i).trans (h i)

theorem RequestPool.setNext_spec (p : RequestPool B) {id : RequestId}
    (hocc : (p id).isSome) (o : Option RequestId) :
    ∃ p', p.setNext id o = some p' ∧ p'.next id = o ∧
      (∀ j, j ≠ id → p' j = p j) ∧ SameRequests p p' := by
  obtain ⟨r, hr⟩ := Option.isSome_iff_exists.mp hocc
  refine ⟨update p id (some { r with nextRequest := o }),
    by simp only [setNext, hr, Option.map_some], ?_, ?_, ?_⟩
  · simp [RequestPool.next]
  · intro j hj
    exact update_of_ne hj _ _
  · intro j
    by_cases hj : j = id
    · subst hj
      simp [hr, BlockRequest.unlinked]
    · rw [update_of_ne hj]

theorem RequestPool.next_congr {p p' : RequestPool B} {i : RequestId}
    (h : p' i = p i) : p'.next i = p.next i := by
  simp only [RequestPool.next, h]

/-- The loop of `add_request` returns, and what then follows `cur` is
the elevator's insertion. The induction is on the rest of the chain;
`cur` keeps its link unless the request lands right behind it. -/
theorem spliceLoop_spec {x : RequestId} {p : RequestPool B}
    (hx : p.next x = none) :
    ∀ (l : List RequestId) (cur : RequestId) (fuel : Nat),
      l.length < fuel →
      Follows p.next (p.next cur) l → (∀ i ∈ x :: cur :: l, (p i).isSome) →
      (x :: cur :: l).Nodup →
      ∃ p', spliceLoop fuel p x cur = some p' ∧
        Follows p'.next (p'.next cur) (splice p.inOrder x cur l) ∧
        (∀ j, j ∉ x :: cur :: l → p' j = p j) ∧ SameRequests p p' := by
  intro l
  induction l with
  | nil =>
    intro cur fuel hfuel hf hocc hnd
    obtain ⟨fuel, rfl⟩ : ∃ n, fuel = n + 1 := ⟨fuel - 1, by simp at hfuel; omega⟩
    obtain ⟨r, hr⟩ := Option.isSome_iff_exists.mp (hocc cur (by simp))
    have hnext : r.nextRequest = none := by
      simpa [Follows, RequestPool.next, hr] using hf
    have hxcur : x ≠ cur := by simpa using hnd
    obtain ⟨p', hp', hcur, hother, hsame⟩ :=
      p.setNext_spec (show (p cur).isSome by simp [hr]) (some x)
    refine ⟨p', by simp [spliceLoop, hr, hnext, hp'], ?_, ?_, hsame⟩
    · refine ⟨hcur, ?_⟩
      exact (RequestPool.next_congr (hother x hxcur)).trans hx
    · intro j hj
      exact hother j (by simp at hj; exact hj.2)
  | cons n l ih =>
    intro cur fuel hfuel hf hocc hnd
    obtain ⟨fuel, rfl⟩ : ∃ m, fuel = m + 1 := ⟨fuel - 1, by simp at hfuel; omega⟩
    obtain ⟨rc, hrc⟩ := Option.isSome_iff_exists.mp (hocc cur (by simp))
    obtain ⟨rx, hrx⟩ := Option.isSome_iff_exists.mp (hocc x (by simp))
    obtain ⟨rn, hrn⟩ := Option.isSome_iff_exists.mp (hocc n (by simp))
    obtain ⟨hcn, hf⟩ := hf
    have hnext : rc.nextRequest = some n := by
      simpa [RequestPool.next, hrc] using hcn
    simp only [spliceLoop, hrc, hrx, hrn, hnext, Option.bind_eq_bind,
      Option.bind_some, splice, RequestPool.inOrder_eq hrc hrx,
      RequestPool.inOrder_eq hrc hrn, RequestPool.inOrder_eq hrx hrn]
    simp only [List.nodup_cons, List.mem_cons, not_or] at hnd
    obtain ⟨⟨hxc, hxn, hxl⟩, ⟨hcn', hcl⟩, hnl, hl⟩ := hnd
    split
    next hins =>
      obtain ⟨p₁, hp₁, hx₁, ho₁, hs₁⟩ :=
        p.setNext_spec (show (p x).isSome by simp [hrx]) (some n)
      obtain ⟨p₂, hp₂, hc₂, ho₂, hs₂⟩ :=
        p₁.setNext_spec (show (p₁ cur).isSome by
          rw [ho₁ cur (Ne.symm hxc)]
          simp [hrc]) (some x)
      have hrest : ∀ j, j ≠ x → j ≠ cur → p₂ j = p j := fun j hjx hjc =>
        (ho₂ j hjc).trans (ho₁ j hjx)
      refine ⟨p₂, by simp [hp₁, hp₂], ⟨hc₂, ?_, ?_⟩, ?_, hs₁.trans hs₂⟩
      · rw [RequestPool.next_congr (ho₂ x hxc), hx₁]
      · rw [RequestPool.next_congr (hrest n (Ne.symm hxn) (Ne.symm hcn'))]
        refine hf.congr fun a ha => RequestPool.next_congr (hrest a ?_ ?_)
        · exact fun h => hxl (h ▸ ha)
        · exact fun h => hcl (h ▸ ha)
      · intro j hj
        simp only [List.mem_cons, not_or] at hj
        exact hrest j hj.1 hj.2.1
    next hins =>
      obtain ⟨p', hp', hf', ho', hs'⟩ := ih n fuel (by simp at hfuel; omega) hf
        (fun i hi => hocc i (by simp at hi ⊢; tauto))
        (by simp [hxn, hxl, hnl, hl])
      refine ⟨p', hp', ⟨?_, hf'⟩, ?_, hs'⟩
      · rw [RequestPool.next_congr (ho' cur (by simp [Ne.symm hxc, hcn', hcl]))]
        exact hcn
      · intro j hj
        exact ho' j (by simp at hj ⊢; tauto)

-- ======== the queues

theorem BlockManager.queue_some {m : BlockManager K B} {major : Nat}
    {dq : DeviceQueue K} (h : m.queue major = some dq) :
    ∃ q : Fin blockDeviceSlotCount, q.val = major ∧ m.queues q = some dq := by
  unfold queue at h
  split at h
  next hlt => exact ⟨⟨major, hlt⟩, rfl, h⟩
  next => cases h

@[simp] theorem BlockManager.queue_fin (m : BlockManager K B)
    (q : Fin blockDeviceSlotCount) : m.queue q = m.queues q := by
  simp [queue, q.isLt]

@[simp] theorem BlockManager.setCurrent_pool (m : BlockManager K B)
    (major : Nat) (ops : K) (o : Option RequestId) :
    (m.setCurrent major ops o).pool = m.pool := by
  unfold setCurrent
  split <;> rfl

theorem BlockManager.head_setCurrent (m : BlockManager K B)
    (q : Fin blockDeviceSlotCount) (ops : K) (o : Option RequestId) :
    (m.setCurrent q ops o).head = update m.head q o := by
  funext q'
  by_cases h : q' = q
  · subst h
    simp [setCurrent, head, q'.isLt]
  · simp [setCurrent, head, q.isLt, update_of_ne h]

theorem QueueShape.not_mem {m : BlockManager K B}
    {chains : Fin blockDeviceSlotCount → List RequestId}
    (hs : QueueShape m chains) {i : RequestId} (h : m.pool i = none)
    (q : Fin blockDeviceSlotCount) : i ∉ chains q := by
  intro hi
  have := (hs.occupied i).mpr ⟨q, hi⟩
  simp [h] at this

/-- A new request takes a free place, and its queue is longer by it. -/
theorem QueueShape.insert {m m' : BlockManager K B}
    {chains : Fin blockDeviceSlotCount → List RequestId}
    (hs : QueueShape m chains) {id : RequestId} (hfree : m.pool id = none)
    {q : Fin blockDeviceSlotCount} {c : List RequestId}
    (hperm : c.Perm (id :: chains q))
    (hf : Follows m'.pool.next (m'.head q) c)
    (hhead : ∀ q', q' ≠ q → m'.head q' = m.head q')
    (hother : ∀ j, j ∉ id :: chains q → m'.pool j = m.pool j)
    (hocc : ∀ j ∈ id :: chains q, (m'.pool j).isSome) :
    QueueShape m' (update chains q c) := by
  have hid : ∀ q', id ∉ chains q' := hs.not_mem hfree
  have hmem : ∀ i, i ∈ c ↔ i ∈ id :: chains q := fun i => hperm.mem_iff
  have hsep : ∀ q', q' ≠ q → ∀ i ∈ chains q', i ∉ id :: chains q := by
    intro q' hq' i hi hin
    rcases List.mem_cons.mp hin with rfl | hin
    · exact hid q' hi
    · exact hs.disjoint q' q hq' hi hin
  constructor
  case follows =>
    intro q'
    by_cases h : q' = q
    · subst h
      simpa using hf
    · rw [update_of_ne h, hhead q' h]
      refine (hs.follows q').congr fun a ha => ?_
      exact RequestPool.next_congr (hother a (hsep q' h a ha))
  case nodup =>
    intro q'
    by_cases h : q' = q
    · subst h
      rw [update_self, hperm.nodup_iff, List.nodup_cons]
      exact ⟨hid q', hs.nodup q'⟩
    · rw [update_of_ne h]
      exact hs.nodup q'
  case disjoint =>
    intro q₁ q₂ hne i h₁ h₂
    by_cases hq₁ : q₁ = q
    · have hq₂ : q₂ ≠ q := fun h => hne (hq₁.trans h.symm)
      subst hq₁
      rw [update_self, hmem] at h₁
      rw [update_of_ne hq₂] at h₂
      exact hsep q₂ hq₂ i h₂ h₁
    · rw [update_of_ne hq₁] at h₁
      by_cases hq₂ : q₂ = q
      · subst hq₂
        rw [update_self, hmem] at h₂
        exact hsep q₁ hq₁ i h₁ h₂
      · rw [update_of_ne hq₂] at h₂
        exact hs.disjoint q₁ q₂ hne h₁ h₂
  case occupied =>
    intro i
    by_cases hin : i ∈ id :: chains q
    · simp only [hocc i hin, true_iff]
      exact ⟨q, by rw [update_self, hmem]; exact hin⟩
    · rw [hother i hin, hs.occupied i]
      constructor
      · rintro ⟨q', hq'⟩
        have hne : q' ≠ q := by
          rintro rfl
          exact hin (List.mem_cons_of_mem _ hq')
        exact ⟨q', by rwa [update_of_ne hne]⟩
      · rintro ⟨q', hq'⟩
        by_cases hne : q' = q
        · subst hne
          rw [update_self, hmem] at hq'
          exact absurd hq' hin
        · exact ⟨q', by rwa [update_of_ne hne] at hq'⟩

/-- `add_request` splices the request into the chain of its device. -/
theorem BlockManager.addRequest_spec {m : BlockManager K B}
    {chains : Fin blockDeviceSlotCount → List RequestId}
    (hs : QueueShape m chains) {id : RequestId} (hfree : m.pool id = none)
    (r : BlockRequest B) {q : Fin blockDeviceSlotCount}
    {dq : DeviceQueue K} (hq : m.queues q = some dq)
    {p : RequestPool B} (hp : p = update m.pool id (some r)) :
    ∃ k m', ({ m with pool := p }).addRequest q id = some (k, m') ∧
      SameRequests p m'.pool ∧
      QueueShape m'
        (update chains q (enqueue p.inOrder id (chains q))) := by
  have hpid : p id = some r := by rw [hp]; exact update_self ..
  have hpo : ∀ j, j ≠ id → p j = m.pool j := by
    intro j hj
    rw [hp]
    exact update_of_ne hj _ _
  obtain ⟨p₁, hp₁, hid₁, ho₁, hs₁⟩ :=
    p.setNext_spec (show (p id).isSome by simp [hpid]) none
  have hout : ∀ j, j ≠ id → p₁ j = m.pool j := fun j hj =>
    (ho₁ j hj).trans (hpo j hj)
  have hidmem := hs.not_mem hfree
  have hocc₁ : ∀ j ∈ id :: chains q, (p₁ j).isSome := by
    intro j hj
    rw [hs₁.isSome]
    by_cases hji : j = id
    · simp [hji, hpid]
    · rw [hpo j hji, hs.occupied]
      exact ⟨q, by simpa [hji] using hj⟩
  have hhead : m.head q = dq.currentRequest := by simp [head, hq]
  have hfol := hs.follows q
  rw [hhead] at hfol
  cases hcur : dq.currentRequest with
  | none =>
    rw [hcur] at hfol
    have hnil : chains q = [] := hfol.eq_nil_iff.mpr rfl
    refine ⟨some dq.ops, ({ m with pool := p₁ }).setCurrent q dq.ops id,
      ?_, by simpa using hs₁, ?_⟩
    · simp [addRequest, hp₁, hq, hcur]
    · refine hs.insert hfree (enqueue_perm _ _ _) ?_ ?_ ?_ ?_
      · rw [hnil, head_setCurrent, update_self]
        exact ⟨rfl, by simpa [Follows] using hid₁⟩
      · intro q' hne
        rw [head_setCurrent, update_of_ne hne]
        rfl
      · intro j hj
        rw [setCurrent_pool]
        exact hout j (fun h => hj (by simp [h]))
      · intro j hj
        rw [setCurrent_pool]
        exact hocc₁ j hj
  | some cur =>
    rw [hcur] at hfol
    obtain ⟨t, ht, hfol⟩ := hfol.eq_cons
    have hnd : (id :: cur :: t).Nodup := by
      rw [← ht, List.nodup_cons]
      exact ⟨hidmem q, hs.nodup q⟩
    have hagree : ∀ j ∈ cur :: t, p₁.next j = m.pool.next j := by
      intro j hj
      refine RequestPool.next_congr (hout j ?_)
      rintro rfl
      exact (List.nodup_cons.mp hnd).1 hj
    have hfol₁ : Follows p₁.next (p₁.next cur) t := by
      rw [hagree cur (by simp)]
      exact hfol.congr fun a ha => hagree a (List.mem_cons_of_mem _ ha)
    have hlen : t.length < requestPoolCapacity := by
      have := hnd.length_le_card
      simp only [List.length_cons, Fintype.card_fin] at this
      omega
    obtain ⟨p₂, hp₂, hf₂, ho₂, hs₂⟩ := spliceLoop_spec hid₁ t cur
      requestPoolCapacity hlen hfol₁ (by rwa [ht] at hocc₁) hnd
    refine ⟨none, { m with pool := p₂ }, ?_, hs₁.trans hs₂, ?_⟩
    · simp [addRequest, hp₁, hq, hcur, hp₂, queue_fin]
    · refine hs.insert hfree (enqueue_perm _ _ _) ?_ ?_ ?_ ?_
      · rw [ht]
        refine ⟨by simp [head, hq, hcur], ?_⟩
        rw [← hs₁.inOrder]
        exact hf₂
      · intro q' _
        rfl
      · intro j hj
        rw [ht] at hj
        exact (ho₂ j hj).trans (hout j (fun h => hj (by simp [h])))
      · intro j hj
        rw [hs₂.isSome]
        exact hocc₁ j hj

/-- `take_current_request` gives the head of the chain and leaves the rest. -/
theorem BlockManager.takeCurrentRequest_spec {m : BlockManager K B}
    {chains : Fin blockDeviceSlotCount → List RequestId}
    (hs : QueueShape m chains) {q : Fin blockDeviceSlotCount}
    {dq : DeviceQueue K} (hq : m.queues q = some dq) {cur : RequestId}
    (hcur : dq.currentRequest = some cur) :
    ∃ r b m', m.takeCurrentRequest q = some (.ok ((r, b), m')) ∧
      m'.pool = update m.pool cur none ∧
      QueueShape m' (update chains q (chains q).tail) := by
  have hfol := hs.follows q
  rw [show m.head q = some cur by simp [head, hq, hcur]] at hfol
  obtain ⟨t, ht, hrest⟩ := hfol.eq_cons
  have hnd := hs.nodup q
  rw [ht] at hnd
  have hcurq : cur ∈ chains q := by simp [ht]
  obtain ⟨r, hr⟩ := Option.isSome_iff_exists.mp
    ((hs.occupied cur).mpr ⟨q, hcurq⟩)
  have hnext : m.pool.next cur = r.nextRequest := by
    simp [RequestPool.next, hr]
  have hagree : ∀ j, j ≠ cur →
      RequestPool.next (update m.pool cur none) j = m.pool.next j :=
    fun j hj => RequestPool.next_congr (update_of_ne hj _ _)
  have hcurt : ∀ q', cur ∉ update chains q t q' := by
    intro q' hmem
    by_cases h : q' = q
    · subst h
      rw [update_self] at hmem
      exact (List.nodup_cons.mp hnd).1 hmem
    · rw [update_of_ne h] at hmem
      exact hs.disjoint q' q h hmem hcurq
  have hsub : ∀ q' i, i ∈ update chains q t q' → i ∈ chains q' := by
    intro q' i hi
    by_cases h : q' = q
    · subst h
      rw [update_self] at hi
      rw [ht]
      exact List.mem_cons_of_mem _ hi
    · rwa [update_of_ne h] at hi
  refine ⟨r, r.nextRequest.isSome,
    ({ m with pool := update m.pool cur none }).setCurrent q dq.ops
      r.nextRequest, ?_, by simp, ?_⟩
  · simp [takeCurrentRequest, hq, hcur, hr]
  rw [ht, List.tail_cons]
  constructor
  case follows =>
    intro q'
    rw [setCurrent_pool, head_setCurrent]
    by_cases h : q' = q
    · subst h
      rw [update_self, update_self, ← hnext]
      refine hrest.congr fun a ha => hagree a ?_
      rintro rfl
      exact (List.nodup_cons.mp hnd).1 ha
    · rw [update_of_ne h, update_of_ne h]
      refine (hs.follows q').congr fun a ha => hagree a ?_
      rintro rfl
      exact hs.disjoint q' q h ha hcurq
  case nodup =>
    intro q'
    by_cases h : q' = q
    · subst h
      rw [update_self]
      exact (List.nodup_cons.mp hnd).2
    · rw [update_of_ne h]
      exact hs.nodup q'
  case disjoint =>
    intro q₁ q₂ hne i h₁ h₂
    exact hs.disjoint q₁ q₂ hne (hsub q₁ i h₁) (hsub q₂ i h₂)
  case occupied =>
    intro i
    rw [setCurrent_pool]
    change (update m.pool cur none i).isSome ↔ _
    by_cases hi : i = cur
    · subst hi
      simp only [update_self, Option.isSome_none, Bool.false_eq_true,
        false_iff, not_exists]
      exact hcurt
    · rw [update_of_ne hi, hs.occupied i]
      refine exists_congr fun q' => ⟨fun h => ?_, hsub q' i⟩
      by_cases hq' : q' = q
      · subst hq'
        rw [update_self]
        rw [ht] at h
        simpa [hi] using h
      · rwa [update_of_ne hq']

theorem BlockManager.takeCurrentRequest_error {m : BlockManager K B}
    {major : Nat} (h : (m.queue major).bind (·.currentRequest) = none) :
    ∃ e, m.takeCurrentRequest major = some (.error e) := by
  unfold takeCurrentRequest
  cases hq : m.queue major with
  | none => exact ⟨_, rfl⟩
  | some dq =>
    rw [hq, Option.bind_some] at h
    simp only [h]
    exact ⟨_, rfl⟩

theorem BlockManager.currentRequest_some {m : BlockManager K B} {major : Nat}
    {id : RequestId} {r : BlockRequest B}
    (h : m.currentRequest major = some (id, r)) :
    ∃ (q : Fin blockDeviceSlotCount), q.val = major ∧
      m.head q = some id ∧ m.pool id = some r := by
  simp only [currentRequest, Option.bind_eq_bind, Option.bind_eq_some_iff,
    Option.pure_def, Option.some.injEq, Prod.mk.injEq] at h
  obtain ⟨dq, hdq, i, hi, r', hr', rfl, rfl⟩ := h
  obtain ⟨q, hq, hdq⟩ := queue_some hdq
  exact ⟨q, hq, by simp [head, hdq, hi], hr'⟩

/-- Progress on a request moves no queue. -/
theorem QueueShape.replace {m : BlockManager K B}
    {chains : Fin blockDeviceSlotCount → List RequestId}
    (hs : QueueShape m chains) {id : RequestId} {r r' : BlockRequest B}
    (hr : m.pool id = some r) (hnext : r'.nextRequest = r.nextRequest) :
    QueueShape { m with pool := update m.pool id (some r') }
      chains := by
  have hsome : ∀ i, (update m.pool id (some r') i).isSome
      = (m.pool i).isSome := by
    intro i
    by_cases h : i = id
    · subst h; simp [hr]
    · rw [update_of_ne h]
  constructor
  case follows =>
    intro q
    refine (hs.follows q).congr fun a _ => ?_
    by_cases h : a = id
    · subst h
      simp [RequestPool.next, hr, hnext]
    · exact RequestPool.next_congr (update_of_ne h _ _)
  case nodup => exact hs.nodup
  case disjoint => exact hs.disjoint
  case occupied =>
    intro i
    rw [← hs.occupied i, ← hsome i]

-- ======== the order

/-- The request as it was submitted, its cursor at the first sector. -/
def BlockRequest.rewound (r : BlockRequest B) : BlockRequest B :=
  { r with progress := { r.progress with nextSector := r.io.firstSector } }

def RequestPool.seekOrder (pool : RequestPool B) : RequestId → RequestId → Bool :=
  RequestPool.inOrder fun i => (pool i).map (·.rewound)

theorem RequestPool.seekOrder_eq {pool : RequestPool B} {a b : RequestId}
    {l r : BlockRequest B} (hl : pool a = some l) (hr : pool b = some r) :
    pool.seekOrder a b = requestInOrder l.rewound r.rewound :=
  inOrder_eq (by rw [hl]; rfl) (by rw [hr]; rfl)

theorem RequestPool.seekOrder_congr {p p' : RequestPool B}
    {a b : RequestId} (ha : (p' a).map (·.io) = (p a).map (·.io))
    (hb : (p' b).map (·.io) = (p b).map (·.io)) :
    p'.seekOrder a b = p.seekOrder a b := by
  unfold RequestPool.seekOrder RequestPool.inOrder
  cases hpa : p a <;> cases hpa' : p' a <;> cases hpb : p b <;>
    cases hpb' : p' b <;> simp_all [requestInOrder, BlockRequest.rewound]

/-- The cursor of a two-sector request: the first sector is even, so the
range does not wrap, and what remains fixes the next sector. -/
structure BlockRequest.InRange (r : BlockRequest B) : Prop where
  count : r.io.sectorCount = 2#32
  even : r.io.firstSector.toNat % 2 = 0
  remaining : r.progress.remainingSectors.toNat ≤ 2
  cursor : r.progress.nextSector =
    r.io.firstSector + (2#32 - r.progress.remainingSectors)

/-- Two requests for the same device and command have different
ranges. -/
def BlockRequest.Apart (r r' : BlockRequest B) : Prop :=
  r.io.ty = r'.io.ty → r.io.dev = r'.io.dev →
    r.io.firstSector ≠ r'.io.firstSector

theorem BlockRequest.ofBuffer_inRange (key : BufferKey)
    (ty : BlockRequestType) (dataAddr : Nat) (payload : RequestPayload B) :
    (BlockRequest.ofBuffer key ty dataAddr payload).InRange := by
  constructor
  case count => rfl
  case even =>
    simp only [ofBuffer, bufferBlockSectorCount, BitVec.toNat_mul,
      BitVec.toNat_ofNat]
    omega
  case remaining => simp [ofBuffer, bufferBlockSectorCount]
  case cursor => simp [ofBuffer, bufferBlockSectorCount]

theorem BlockRequest.InRange.bounds {r : BlockRequest B} (h : r.InRange)
    (hrem : r.progress.remainingSectors ≠ 0#32) :
    r.io.firstSector.toNat ≤ r.progress.nextSector.toNat ∧
      r.progress.nextSector.toNat ≤ r.io.firstSector.toNat + 1 := by
  have hpos : r.progress.remainingSectors.toNat ≠ 0 := fun h0 =>
    hrem (BitVec.eq_of_toNat_eq (by simpa using h0))
  have heven := h.even
  have hle := h.remaining
  rw [h.cursor]
  simp only [BitVec.toNat_add, BitVec.toNat_sub, BitVec.toNat_ofNat]
  have := r.io.firstSector.isLt
  omega

theorem BlockRequest.InRange.advance {r r' : BlockRequest B} (h : r.InRange)
    (ha : r.advanceOneSector = some r') : r'.InRange := by
  unfold advanceOneSector at ha
  split at ha
  · cases ha
  next hrem =>
    injection ha with ha
    subst ha
    have hpos : r.progress.remainingSectors.toNat ≠ 0 := fun h0 =>
      hrem (BitVec.eq_of_toNat_eq (by simpa using h0))
    have hle := h.remaining
    constructor
    case count => exact h.count
    case even => exact h.even
    case remaining =>
      simp only [BitVec.toNat_sub, BitVec.toNat_ofNat]
      omega
    case cursor =>
      simp only [h.cursor]
      bv_omega

theorem BlockRequest.Apart.key_ne {r r' : BlockRequest B}
    (hap : r.Apart r') :
    r.io.ty.toNat ≠ r'.io.ty.toNat ∨
      r.io.dev.raw.toNat ≠ r'.io.dev.raw.toNat ∨
      r.io.firstSector.toNat ≠ r'.io.firstSector.toNat := by
  by_contra hcon
  push Not at hcon
  obtain ⟨hty, hdev, hfirst⟩ := hcon
  refine hap ?_ ?_ (BitVec.eq_of_toNat_eq hfirst)
  · revert hty
    cases r.io.ty <;> cases r'.io.ty <;> simp [BlockRequestType.toNat]
  · have := BitVec.eq_of_toNat_eq hdev
    cases hr : r.io.dev
    cases hr' : r'.io.dev
    simp_all

theorem requestInOrder_rewound {r r' : BlockRequest B} (h : r.InRange)
    (h' : r'.InRange) (hrem : r.progress.remainingSectors ≠ 0#32)
    (hrem' : r'.progress.remainingSectors ≠ 0#32) (hap : r.Apart r') :
    requestInOrder r r' = requestInOrder r.rewound r'.rewound := by
  have hb := h.bounds hrem
  have hb' := h'.bounds hrem'
  have he := h.even
  have he' := h'.even
  have hkey := hap.key_ne
  unfold requestInOrder BlockRequest.rewound
  congr 1
  simp only [eq_iff_iff]
  omega

theorem requestInOrder_connected {r r' : BlockRequest B} (hap : r.Apart r') :
    requestInOrder r.rewound r'.rewound = true ∨
      requestInOrder r'.rewound r.rewound = true := by
  have hkey := hap.key_ne
  unfold requestInOrder BlockRequest.rewound
  rw [decide_eq_true_iff, decide_eq_true_iff]
  dsimp only
  omega

-- ======== the steps

/-- The shape, and a reserved slot that stays free until it is used. -/
structure BlockSys.Inv (s : BlockSys K B)
    (chains : Fin blockDeviceSlotCount → List RequestId) : Prop where
  shape : QueueShape s.manager chains
  free : ∀ ty id, s.reserved = some (ty, id) → s.manager.pool id = none

/-- What an action does to the chains. -/
inductive Moved (s s' : BlockSys K B)
    (chains chains' : Fin blockDeviceSlotCount → List RequestId) :
    BlockAct K B → Prop
  | quiet {a : BlockAct K B} (hpool : s'.manager.pool = s.manager.pool)
      (hchains : chains' = chains) : Moved s s' chains chains' a
  | served {a : BlockAct K B} (q : Fin blockDeviceSlotCount)
      (id : RequestId) (r r' : BlockRequest B)
      (hhead : s.manager.head q = some id) (hr : s.manager.pool id = some r)
      (hpool : s'.manager.pool
        = update s.manager.pool id (some r'))
      (hio : r'.io = r.io)
      (hprogress : r'.progress = r.progress ∨ r.advanceOneSector = some r')
      (hchains : chains' = chains) : Moved s s' chains chains' a
  | added (key : BufferKey) (dataAddr : Nat) (payload : RequestPayload B)
      (ty : BlockRequestType) (id : RequestId) (p : RequestPool B)
      (q : Fin blockDeviceSlotCount) (hq : q.val = key.dev.major)
      (hres : s.reserved = some (ty, id))
      (hp : p = update s.manager.pool id
        (some (BlockRequest.ofBuffer key ty dataAddr payload)))
      (hpool : SameRequests p s'.manager.pool)
      (hchains : chains'
        = update chains q (enqueue p.inOrder id (chains q))) :
      Moved s s' chains chains' (.addRequest key dataAddr payload)
  | completed {a : BlockAct K B} (q : Fin blockDeviceSlotCount)
      (cur : RequestId)
      (hpool : s'.manager.pool = update s.manager.pool cur none)
      (hchains : chains' = update chains q (chains q).tail) :
      Moved s s' chains chains' a

theorem BlockSys.Inv.withCurrentRequest {s s' : BlockSys K B}
    {chains : Fin blockDeviceSlotCount → List RequestId} (h : s.Inv chains)
    {major : Nat} {f : BlockRequest B → Option (BlockRequest B)}
    (hf : ∀ r r', f r = some r' → r'.io = r.io ∧
      r'.nextRequest = r.nextRequest ∧
      (r'.progress = r.progress ∨ r.advanceOneSector = some r'))
    (hstep : s.withCurrentRequest major f = some s') (a : BlockAct K B) :
    s'.Inv chains ∧ Moved s s' chains chains a := by
  simp only [BlockSys.withCurrentRequest, Option.bind_eq_bind,
    Option.bind_eq_some_iff, Option.pure_def, Option.some.injEq,
    Prod.exists] at hstep
  obtain ⟨id, r, hcur, r', hr', rfl⟩ := hstep
  obtain ⟨q, -, hhead, hr⟩ := BlockManager.currentRequest_some hcur
  obtain ⟨hio, hnext, hprog⟩ := hf r r' hr'
  refine ⟨⟨h.shape.replace hr hnext, ?_⟩,
    .served q id r r' hhead hr rfl hio hprog rfl⟩
  intro ty i hi
  have hnone := h.free ty i hi
  have hne : i ≠ id := by
    rintro rfl
    rw [hr] at hnone
    cases hnone
  exact (update_of_ne hne _ _).trans hnone

theorem BlockRequest.advanceOneSector_keeps {r r' : BlockRequest B}
    (h : r.advanceOneSector = some r') :
    r'.io = r.io ∧ r'.nextRequest = r.nextRequest := by
  unfold advanceOneSector at h
  split at h
  · cases h
  · injection h with h
    subst h
    exact ⟨rfl, rfl⟩

theorem BlockSys.Inv.new (flags : B → BufferFlags) :
    (BlockSys.new flags : BlockSys K B).Inv fun _ => [] := by
  refine ⟨⟨fun _ => rfl, fun _ => List.nodup_nil, ?_, ?_⟩, ?_⟩
  · intro q q' _ i hi
    cases hi
  · intro i
    simp [BlockSys.new]
  · intro ty id h
    cases h

section
variable [DecidableEq B]

/-- What a step does to the chains: one request more, one less, or none
moved. -/
theorem BlockSys.Inv.step {s s' : BlockSys K B}
    {chains : Fin blockDeviceSlotCount → List RequestId} (h : s.Inv chains)
    {a : BlockAct K B} (hstep : s.step a = some s') :
    ∃ chains', s'.Inv chains' ∧ Moved s s' chains chains' a := by
  cases a with
  | registerDriver major ops =>
    simp only [BlockSys.step] at hstep
    split at hstep
    next hcond =>
      injection hstep with hstep
      subst hstep
      obtain ⟨hlt, hnone⟩ := hcond
      refine ⟨chains, ⟨?_, ?_⟩, .quiet (by simp) rfl⟩
      · have hold : s.manager.head ⟨major, hlt⟩ = none := by
          simp [BlockManager.queue, hlt] at hnone
          simp [BlockManager.head, hnone]
        have hhead : (s.manager.setCurrent major ops none).head
            = s.manager.head := by
          rw [s.manager.head_setCurrent ⟨major, hlt⟩ ops none, ← hold,
            update_eq_self]
        constructor
        case follows =>
          intro q
          rw [BlockManager.setCurrent_pool, hhead]
          exact h.shape.follows q
        case nodup => exact h.shape.nodup
        case disjoint => exact h.shape.disjoint
        case occupied => simpa using h.shape.occupied
      · intro ty id hres
        simpa using h.free ty id hres
    next => cases hstep
  | reserve ty =>
    simp only [BlockSys.step] at hstep
    split at hstep
    · cases hstep
    · simp only [Option.bind_eq_bind, Option.bind_eq_some_iff,
        Option.pure_def, Option.some.injEq] at hstep
      obtain ⟨id, hid, rfl⟩ := hstep
      refine ⟨chains, ⟨h.shape, ?_⟩, .quiet rfl rfl⟩
      intro ty' id' hres
      simp only [Option.some.injEq, Prod.mk.injEq] at hres
      obtain ⟨-, rfl⟩ := hres
      have := List.find?_some hid
      simpa using (Bool.and_eq_true_iff.mp this).2
  | addRequest key dataAddr payload =>
    simp only [BlockSys.step, Option.bind_eq_bind, Option.bind_eq_some_iff,
      Option.pure_def, Option.some.injEq, Prod.exists] at hstep
    obtain ⟨ty, id, hres, k, hk, k', m, hadd, rfl⟩ := hstep
    obtain ⟨dq, hdq, -⟩ := Option.map_eq_some_iff.mp hk
    obtain ⟨q, hq, hdq⟩ := BlockManager.queue_some hdq
    obtain ⟨k'', m', hadd', hsame, hshape⟩ := BlockManager.addRequest_spec
      h.shape (h.free ty id hres)
      (BlockRequest.ofBuffer key ty dataAddr payload) hdq rfl
    rw [hq, hadd, Option.some.injEq, Prod.mk.injEq] at hadd'
    obtain ⟨-, rfl⟩ := hadd'
    refine ⟨_, ⟨hshape, ?_⟩,
      .added key dataAddr payload ty id _ q hq hres rfl hsame rfl⟩
    intro ty' id' hnone
    cases hnone
  | advanceOneSector major =>
    refine ⟨chains, h.withCurrentRequest (fun r r' hr => ?_) hstep _⟩
    obtain ⟨hio, hnext⟩ := BlockRequest.advanceOneSector_keeps hr
    exact ⟨hio, hnext, .inr hr⟩
  | clearErrors major =>
    refine ⟨chains, h.withCurrentRequest (f := fun r => some r.clearErrors)
      (fun r r' hr => ?_) hstep _⟩
    injection hr with hr
    subst hr
    exact ⟨rfl, rfl, .inl rfl⟩
  | recordError major maxErrors =>
    refine ⟨chains, h.withCurrentRequest
      (f := fun r => some (r.recordError maxErrors).2)
      (fun r r' hr => ?_) hstep _⟩
    injection hr with hr
    subst hr
    exact ⟨rfl, rfl, .inl rfl⟩
  | completeCurrent major success =>
    simp only [BlockSys.step, Option.bind_eq_bind,
      Option.bind_eq_some_iff] at hstep
    obtain ⟨res, htake, hres⟩ := hstep
    cases hcur : (s.manager.queue major).bind (·.currentRequest) with
    | none =>
      obtain ⟨e, he⟩ := BlockManager.takeCurrentRequest_error hcur
      rw [he, Option.some.injEq] at htake
      subst htake
      simp only [Option.pure_def, Option.some.injEq] at hres
      subst hres
      exact ⟨chains, h, .quiet rfl rfl⟩
    | some cur =>
      obtain ⟨dq, hdq, hdqc⟩ := Option.bind_eq_some_iff.mp hcur
      obtain ⟨q, rfl, hdq'⟩ := BlockManager.queue_some hdq
      obtain ⟨r, b, m', htake', hpool, hshape⟩ :=
        BlockManager.takeCurrentRequest_spec h.shape hdq' hdqc
      rw [htake', Option.some.injEq] at htake
      subst htake
      simp only [Option.pure_def, Option.some.injEq] at hres
      subst hres
      refine ⟨_, ⟨hshape, ?_⟩, .completed q cur hpool rfl⟩
      intro ty id hid
      have hnone := h.free ty id hid
      change m'.pool id = none
      rw [hpool]
      by_cases hne : id = cur
      · rw [hne, update_self]
      · rw [update_of_ne hne]
        exact hnone

/-- In a state of the invariant an enabled action does not panic. -/
theorem BlockSys.Inv.step_isSome {s : BlockSys K B}
    {chains : Fin blockDeviceSlotCount → List RequestId} (h : s.Inv chains)
    {a : BlockAct K B} (ha : s.Enabled a) : (s.step a).isSome := by
  cases a with
  | registerDriver major ops =>
    obtain ⟨hlt, hnone⟩ := ha
    simp [BlockSys.step, hlt, hnone]
  | reserve ty =>
    obtain ⟨hres, hfree⟩ := ha
    obtain ⟨id, hid⟩ := Option.isSome_iff_exists.mp hfree
    simp [BlockSys.step, hres, hid]
  | addRequest key dataAddr payload =>
    obtain ⟨hres, hops⟩ := ha
    obtain ⟨⟨ty, id⟩, hres⟩ := Option.isSome_iff_exists.mp hres
    obtain ⟨k, hk⟩ := Option.isSome_iff_exists.mp hops
    obtain ⟨dq, hdq, -⟩ := Option.map_eq_some_iff.mp hk
    obtain ⟨q, hq, hdq⟩ := BlockManager.queue_some hdq
    obtain ⟨k', m', hadd, -, -⟩ := BlockManager.addRequest_spec
      h.shape (h.free ty id hres)
      (BlockRequest.ofBuffer key ty dataAddr payload) hdq rfl
    rw [hq] at hadd
    simp [BlockSys.step, hres, hk, hadd]
  | advanceOneSector major =>
    obtain ⟨id, r, hcur, hrem⟩ := ha
    simp [BlockSys.step, BlockSys.withCurrentRequest, hcur,
      BlockRequest.advanceOneSector, hrem]
  | clearErrors major =>
    obtain ⟨⟨id, r⟩, hcur⟩ := Option.isSome_iff_exists.mp ha
    simp [BlockSys.step, BlockSys.withCurrentRequest, hcur]
  | recordError major maxErrors =>
    obtain ⟨⟨id, r⟩, hcur⟩ := Option.isSome_iff_exists.mp ha
    simp [BlockSys.step, BlockSys.withCurrentRequest, hcur]
  | completeCurrent major success =>
    cases hcur : (s.manager.queue major).bind (·.currentRequest) with
    | none =>
      obtain ⟨e, he⟩ := BlockManager.takeCurrentRequest_error hcur
      simp [BlockSys.step, he]
    | some cur =>
      obtain ⟨dq, hdq, hdqc⟩ := Option.bind_eq_some_iff.mp hcur
      obtain ⟨q, rfl, hdq'⟩ := BlockManager.queue_some hdq
      obtain ⟨r, b, m', htake, -, -⟩ :=
        BlockManager.takeCurrentRequest_spec h.shape hdq' hdqc
      simp [BlockSys.step, htake]

end

-- ======== the sweep

/-- The order of a disciplined run: cursors in range, untouched behind
the head, ranges apart, and one descent at most. -/
structure BlockSys.Sweep (s : BlockSys K B)
    (chains : Fin blockDeviceSlotCount → List RequestId) : Prop where
  range : ∀ i r, s.manager.pool i = some r → r.InRange
  fresh : ∀ q, ∀ i ∈ (chains q).tail, ∀ r, s.manager.pool i = some r →
    r.progress.remainingSectors = 2#32
  apart : ∀ i j r r', i ≠ j → s.manager.pool i = some r →
    s.manager.pool j = some r' → r.Apart r'
  once : ∀ q, descents s.manager.pool.seekOrder (chains q) ≤ 1

/-- The discipline of the submitters: a new request overlaps no queued
request of the same command and device, and does not arrive between the
last advance of the request in flight and its completion. -/
def BlockSys.Disciplined (s : BlockSys K B) : BlockAct K B → Prop
  | .addRequest key _ _ => ∀ ty id, s.reserved = some (ty, id) →
      (∀ i r, s.manager.pool i = some r → r.io.ty = ty → r.io.dev = key.dev →
        let first := (key.blockNumber * bufferBlockSectorCount).toNat
        r.io.firstSector.toNat + r.io.sectorCount.toNat ≤ first ∨
          first + bufferBlockSectorCount.toNat ≤ r.io.firstSector.toNat) ∧
      ∀ i r, s.manager.currentRequest key.dev.major = some (i, r) →
        r.progress.remainingSectors ≠ 0#32
  | _ => True

/-- Behind the current request the sweep turns back at most once. -/
theorem BlockSys.Sweep.tail_le {s : BlockSys K B}
    {chains : Fin blockDeviceSlotCount → List RequestId}
    (h : s.Sweep chains) (q : Fin blockDeviceSlotCount) :
    descents s.manager.pool.inOrder (chains q).tail ≤ 1 := by
  have hcursor : ∀ a ∈ (chains q).tail, ∀ r, s.manager.pool a = some r →
      r.rewound = r := by
    intro a ha r hr
    have hcur := (h.range a r hr).cursor
    rw [h.fresh q a ha r hr, BitVec.sub_self, BitVec.add_zero] at hcur
    simp only [BlockRequest.rewound, ← hcur]
  have heq : descents s.manager.pool.inOrder (chains q).tail
      = descents s.manager.pool.seekOrder (chains q).tail := by
    refine descents_congr fun a ha b hb => ?_
    cases hpa : s.manager.pool a with
    | none => simp [RequestPool.seekOrder, RequestPool.inOrder, hpa]
    | some ra =>
      cases hpb : s.manager.pool b with
      | none => simp [RequestPool.seekOrder, RequestPool.inOrder, hpa, hpb]
      | some rb =>
        rw [RequestPool.inOrder_eq hpa hpb, RequestPool.seekOrder_eq hpa hpb,
          hcursor a ha ra hpa, hcursor b hb rb hpb]
  rw [heq]
  exact (descents_tail_le _ _).trans (h.once q)

theorem requestInOrder_self (r : BlockRequest B) :
    requestInOrder r r = false := by
  simp [requestInOrder]

theorem RequestPool.inOrder_eq_seekOrder {p : RequestPool B}
    {l : List RequestId}
    (hl : ∀ i ∈ l, ∃ r, p i = some r ∧ r.InRange ∧
      r.progress.remainingSectors ≠ 0#32)
    (hap : ∀ i j r r', i ≠ j → p i = some r → p j = some r' → r.Apart r') :
    ∀ a ∈ l, ∀ b ∈ l, p.inOrder a b = p.seekOrder a b := by
  intro a ha b hb
  obtain ⟨ra, hra, hina, hrema⟩ := hl a ha
  obtain ⟨rb, hrb, hinb, hremb⟩ := hl b hb
  rw [inOrder_eq hra hrb, seekOrder_eq hra hrb]
  by_cases hab : a = b
  · subst hab
    rw [hra, Option.some.injEq] at hrb
    subst hrb
    rw [requestInOrder_self, requestInOrder_self]
  · exact requestInOrder_rewound hina hinb hrema hremb (hap a b ra rb hab hra hrb)

/-- The pool with a new request that is in no queue yet. -/
structure RequestPool.Placed (old p : RequestPool B) (id : RequestId)
    (new : BlockRequest B) : Prop where
  self : p id = some new
  other : ∀ j, j ≠ id → p j = old j

namespace RequestPool.Placed

variable {old p : RequestPool B} {id : RequestId} {new : BlockRequest B}

theorem of_update : Placed old (update old id (some new)) id new :=
  ⟨update_self .., fun _ hj => update_of_ne hj ..⟩

theorem inRange (hp : Placed old p id new) (hnew : new.InRange)
    (hold : ∀ i r, old i = some r → r.InRange) :
    ∀ i r, p i = some r → r.InRange := by
  intro i r hr
  by_cases hi : i = id
  · subst hi
    rw [hp.self, Option.some.injEq] at hr
    exact hr ▸ hnew
  · exact hold i r (by rwa [hp.other i hi] at hr)

theorem apart (hp : Placed old p id new)
    (hnew : ∀ i r, old i = some r → r.Apart new)
    (hold : ∀ i j r r', i ≠ j → old i = some r → old j = some r' →
      r.Apart r') :
    ∀ i j r r', i ≠ j → p i = some r → p j = some r' → r.Apart r' := by
  intro i j r r' hij hr hr'
  by_cases hj : j = id
  · subst hj
    rw [hp.self, Option.some.injEq] at hr'
    exact hr' ▸ hnew i r (by rwa [hp.other i hij] at hr)
  · rw [hp.other j hj] at hr'
    by_cases hi : i = id
    · subst hi
      rw [hp.self, Option.some.injEq] at hr
      subst hr
      intro hty hdev hfirst
      exact hnew j r' hr' hty.symm hdev.symm hfirst.symm
    · exact hold i j r r' hij (by rwa [hp.other i hi] at hr) hr'

theorem descents_eq (hp : Placed old p id new) {l : List RequestId}
    (hl : ∀ i ∈ l, i ≠ id) :
    descents p.seekOrder l = descents old.seekOrder l := by
  refine descents_congr fun a ha b hb => seekOrder_congr ?_ ?_
  · rw [hp.other a (hl a ha)]
  · rw [hp.other b (hl b hb)]

end RequestPool.Placed

theorem BlockRequest.Apart.ofBuffer {r : BlockRequest B} (hr : r.InRange)
    {key : BufferKey} {ty : BlockRequestType} {dataAddr : Nat}
    {payload : RequestPayload B}
    (hfar : r.io.ty = ty → r.io.dev = key.dev →
      let first := (key.blockNumber * bufferBlockSectorCount).toNat
      r.io.firstSector.toNat + r.io.sectorCount.toNat ≤ first ∨
        first + bufferBlockSectorCount.toNat ≤ r.io.firstSector.toNat) :
    r.Apart (.ofBuffer key ty dataAddr payload) := by
  intro hty hdev hfirst
  have hcount := congrArg BitVec.toNat hr.count
  have := hfar hty hdev
  rw [hfirst] at this
  simp only [BlockRequest.ofBuffer, bufferBlockSectorCount,
    BitVec.toNat_ofNat] at this hcount
  omega

theorem BlockRequest.Apart.congr {r₁ r₂ r r' : BlockRequest B}
    (h : r.Apart r') (hio : r₁.io = r.io) (hio' : r₂.io = r'.io) :
    r₁.Apart r₂ := by
  unfold Apart at h ⊢
  rwa [hio, hio']

/-- The requests of a queue have sectors left: the head by the discipline,
the others because nothing of them has been served. -/
theorem BlockSys.Sweep.remaining {s : BlockSys K B}
    {chains : Fin blockDeviceSlotCount → List RequestId}
    (hinv : s.Inv chains) (h : s.Sweep chains) {q : Fin blockDeviceSlotCount}
    (hhead : ∀ i r, s.manager.currentRequest q = some (i, r) →
      r.progress.remainingSectors ≠ 0#32) :
    ∀ i ∈ chains q, ∃ r, s.manager.pool i = some r ∧
      r.progress.remainingSectors ≠ 0#32 := by
  intro i hi
  obtain ⟨r, hr⟩ := Option.isSome_iff_exists.mp
    ((hinv.shape.occupied i).mpr ⟨q, hi⟩)
  refine ⟨r, hr, ?_⟩
  cases hc : chains q with
  | nil => rw [hc] at hi; cases hi
  | cons cur t =>
    rw [hc] at hi
    rcases List.mem_cons.mp hi with rfl | hi
    · have hf := hinv.shape.follows q
      rw [hc] at hf
      refine hhead i r ?_
      simp only [BlockManager.head, Option.bind_eq_some_iff, Follows] at hf
      obtain ⟨⟨dq, hdq, hcur⟩, -⟩ := hf
      simp [BlockManager.currentRequest, hdq, hcur, hr]
    · rw [h.fresh q i (by rw [hc]; exact hi) r hr]
      decide

theorem mem_tail_enqueue {lt : RequestId → RequestId → Bool} {i id : RequestId}
    {l : List RequestId} (hi : i ∈ (enqueue lt id l).tail) :
    i = id ∨ i ∈ l.tail := by
  cases l with
  | nil => cases hi
  | cons cur t => exact List.mem_cons.mp ((splice_perm lt id t cur).mem_iff.mp hi)

/-- The splice puts the new request where the sweep has it. -/
theorem BlockSys.Sweep.added {s s' : BlockSys K B}
    {chains : Fin blockDeviceSlotCount → List RequestId}
    (hinv : s.Inv chains) (h : s.Sweep chains) {key : BufferKey}
    {dataAddr : Nat} {payload : RequestPayload B}
    (hd : s.Disciplined (.addRequest key dataAddr payload))
    {ty : BlockRequestType} {id : RequestId} {p : RequestPool B}
    {q : Fin blockDeviceSlotCount} (hq : q.val = key.dev.major)
    (hres : s.reserved = some (ty, id))
    (hp : p = update s.manager.pool id
      (some (BlockRequest.ofBuffer key ty dataAddr payload)))
    (hpool : SameRequests p s'.manager.pool) :
    s'.Sweep (update chains q (enqueue p.inOrder id (chains q))) := by
  obtain ⟨hfar, hhead⟩ := hd ty id hres
  have hidmem := hinv.shape.not_mem (hinv.free ty id hres)
  have hplaced : s.manager.pool.Placed p id
      (.ofBuffer key ty dataAddr payload) := by
    rw [hp]
    exact .of_update
  have hne : ∀ {q' i}, i ∈ chains q' → i ≠ id := by
    rintro q' i hi rfl
    exact hidmem q' hi
  have hrange := hplaced.inRange (BlockRequest.ofBuffer_inRange ..) h.range
  have hapart := hplaced.apart (fun i r hr =>
    .ofBuffer (h.range i r hr) (hfar i r hr)) h.apart
  have hlive : ∀ i ∈ id :: chains q, ∃ r, p i = some r ∧ r.InRange ∧
      r.progress.remainingSectors ≠ 0#32 := by
    intro i hi
    rcases List.mem_cons.mp hi with rfl | hi
    · exact ⟨_, hplaced.self, hrange _ _ hplaced.self, by
        simp [BlockRequest.ofBuffer, bufferBlockSectorCount]⟩
    · obtain ⟨r, hr, hrem⟩ := h.remaining hinv (hq ▸ hhead) i hi
      exact ⟨r, by rw [hplaced.other i (hne hi)]; exact hr, h.range i r hr, hrem⟩
  have hsame : s'.manager.pool.seekOrder = p.seekOrder := by
    have hio : ∀ i, (s'.manager.pool i).map (·.io) = (p i).map (·.io) := by
      intro i
      simpa [BlockRequest.unlinked, Function.comp_def]
        using congrArg (Option.map (·.io)) (hpool i)
    funext a b
    exact RequestPool.seekOrder_congr (hio a) (hio b)
  constructor
  case range =>
    intro i r' hr'
    obtain ⟨r, hr, hio, hprog⟩ := hpool.get hr'
    obtain ⟨hc, he, hm, hcur⟩ := hrange i r hr
    exact ⟨by rwa [hio], by rwa [hio], by rwa [hprog], by rwa [hio, hprog]⟩
  case fresh =>
    intro q' i hi r' hr'
    obtain ⟨r, hr, -, hprog⟩ := hpool.get hr'
    rw [hprog]
    have hcase : i = id ∨ i ∈ (chains q').tail := by
      by_cases hq' : q' = q
      · subst hq'
        rw [update_self] at hi
        exact mem_tail_enqueue hi
      · rw [update_of_ne hq'] at hi
        exact .inr hi
    rcases hcase with rfl | hi
    · rw [hplaced.self, Option.some.injEq] at hr
      exact hr ▸ rfl
    · refine h.fresh q' i hi r ?_
      rwa [hplaced.other i (hne (List.mem_of_mem_tail hi))] at hr
  case apart =>
    intro i j r₁ r₂ hij hr₁ hr₂
    obtain ⟨r, hr, hio, -⟩ := hpool.get hr₁
    obtain ⟨r', hr', hio', -⟩ := hpool.get hr₂
    exact (hapart i j r r' hij hr hr').congr hio hio'
  case once =>
    intro q'
    rw [hsame]
    by_cases hq' : q' = q
    · subst hq'
      rw [update_self, enqueue_congr id (chains q')
        (RequestPool.inOrder_eq_seekOrder hlive hapart)]
      refine descents_enqueue_le _ _ _ ?_ ?_
      · intro n hn
        obtain ⟨r, hr, -⟩ := hlive n (List.mem_cons_of_mem _ hn)
        rw [RequestPool.seekOrder_eq hplaced.self hr,
          RequestPool.seekOrder_eq hr hplaced.self]
        exact requestInOrder_connected
          (hapart id n _ r (Ne.symm (hne hn)) hplaced.self hr)
      · rw [hplaced.descents_eq fun i hi => hne hi]
        exact h.once q'
    · rw [update_of_ne hq', hplaced.descents_eq fun i hi => hne hi]
      exact h.once q'

/-- Sectors are served at the head only, whose place the order does not ask
for. -/
theorem BlockSys.Sweep.served {s s' : BlockSys K B}
    {chains : Fin blockDeviceSlotCount → List RequestId}
    (hinv : s.Inv chains) (h : s.Sweep chains)
    {q : Fin blockDeviceSlotCount} {id : RequestId} {r r' : BlockRequest B}
    (hhead : s.manager.head q = some id) (hr : s.manager.pool id = some r)
    (hpool : s'.manager.pool = update s.manager.pool id (some r'))
    (hio : r'.io = r.io)
    (hprogress : r'.progress = r.progress ∨ r.advanceOneSector = some r') :
    s'.Sweep chains := by
  obtain ⟨t, ht, -⟩ := (hhead ▸ hinv.shape.follows q).eq_cons
  have hget : ∀ i r₁, s'.manager.pool i = some r₁ →
      ∃ r₀, s.manager.pool i = some r₀ ∧ r₁.io = r₀.io ∧ (i ≠ id → r₁ = r₀) := by
    intro i r₁ hr₁
    rw [hpool] at hr₁
    by_cases hi : i = id
    · subst hi
      rw [update_self, Option.some.injEq] at hr₁
      subst hr₁
      exact ⟨r, hr, hio, fun h => absurd rfl h⟩
    · rw [update_of_ne hi] at hr₁
      exact ⟨r₁, hr₁, rfl, fun _ => rfl⟩
  have htail : ∀ q', id ∉ (chains q').tail := by
    intro q' hmem
    by_cases hq' : q' = q
    · subst hq'
      have hnd := hinv.shape.nodup q'
      rw [ht] at hmem hnd
      exact (List.nodup_cons.mp hnd).1 hmem
    · exact hinv.shape.disjoint q' q hq' (List.mem_of_mem_tail hmem) (by simp [ht])
  constructor
  case range =>
    intro i r₁ hr₁
    by_cases hi : i = id
    · subst hi
      rw [hpool, update_self, Option.some.injEq] at hr₁
      subst hr₁
      have hin := h.range i r hr
      rcases hprogress with hprog | hadv
      · obtain ⟨hc, he, hm, hcur⟩ := hin
        exact ⟨by rwa [hio], by rwa [hio], by rwa [hprog], by rwa [hio, hprog]⟩
      · exact hin.advance hadv
    · obtain ⟨r₀, hr₀, -, heq⟩ := hget i r₁ hr₁
      exact heq hi ▸ h.range i r₀ hr₀
  case fresh =>
    intro q' i hi r₁ hr₁
    obtain ⟨r₀, hr₀, -, heq⟩ := hget i r₁ hr₁
    have hne : i ≠ id := by
      rintro rfl
      exact htail q' hi
    exact heq hne ▸ h.fresh q' i hi r₀ hr₀
  case apart =>
    intro i j r₁ r₂ hij hr₁ hr₂
    obtain ⟨r₀, hr₀, hio₁, -⟩ := hget i r₁ hr₁
    obtain ⟨r₀', hr₀', hio₂, -⟩ := hget j r₂ hr₂
    have := h.apart i j r₀ r₀' hij hr₀ hr₀'
    unfold BlockRequest.Apart at this ⊢
    rwa [hio₁, hio₂]
  case once =>
    intro q'
    refine le_of_eq_of_le (descents_congr fun a _ b _ => ?_) (h.once q')
    have hsame : ∀ i, (s'.manager.pool i).map (·.io)
        = (s.manager.pool i).map (·.io) := by
      intro i
      rw [hpool]
      by_cases hi : i = id
      · subst hi
        simp [hr, hio]
      · rw [update_of_ne hi]
    exact RequestPool.seekOrder_congr (hsame a) (hsame b)

/-- Without its head, a chain that turns once turns once at most. -/
theorem BlockSys.Sweep.completed {s s' : BlockSys K B}
    {chains : Fin blockDeviceSlotCount → List RequestId}
    {q : Fin blockDeviceSlotCount} {cur : RequestId}
    (h : s.Sweep chains)
    (hinv : s'.Inv (update chains q (chains q).tail))
    (hpool : s'.manager.pool = update s.manager.pool cur none) :
    s'.Sweep (update chains q (chains q).tail) := by
  have hget : ∀ i r, s'.manager.pool i = some r → s.manager.pool i = some r := by
    intro i r hr
    rw [hpool] at hr
    by_cases hi : i = cur
    · subst hi
      rw [update_self] at hr
      cases hr
    · rwa [update_of_ne hi] at hr
  have hkeep : ∀ q', ∀ i ∈ update chains q (chains q).tail q',
      s'.manager.pool i = s.manager.pool i := by
    intro q' i hi
    obtain ⟨r, hr⟩ := Option.isSome_iff_exists.mp
      ((hinv.shape.occupied i).mpr ⟨q', hi⟩)
    rw [hr, hget i r hr]
  constructor
  case range => exact fun i r hr => h.range i r (hget i r hr)
  case fresh =>
    intro q' i hi r hr
    refine h.fresh q' i ?_ r (hget i r hr)
    by_cases hq' : q' = q
    · subst hq'
      rw [update_self] at hi
      exact List.mem_of_mem_tail hi
    · rwa [update_of_ne hq'] at hi
  case apart =>
    exact fun i j r r' hij hr hr' =>
      h.apart i j r r' hij (hget i r hr) (hget j r' hr')
  case once =>
    intro q'
    have hold : descents s.manager.pool.seekOrder
        (update chains q (chains q).tail q') ≤ 1 := by
      by_cases hq' : q' = q
      · subst hq'
        rw [update_self]
        exact (descents_tail_le _ _).trans (h.once q')
      · rw [update_of_ne hq']
        exact h.once q'
    refine le_of_eq_of_le (descents_congr fun a ha b hb => ?_) hold
    exact RequestPool.seekOrder_congr (by rw [hkeep q' a ha])
      (by rw [hkeep q' b hb])

theorem BlockSys.Sweep.moved {s s' : BlockSys K B}
    {chains chains' : Fin blockDeviceSlotCount → List RequestId}
    (hinv : s.Inv chains) (h : s.Sweep chains) {a : BlockAct K B}
    (hd : s.Disciplined a) (hinv' : s'.Inv chains')
    (hm : Moved s s' chains chains' a) : s'.Sweep chains' := by
  cases hm with
  | quiet hpool hchains =>
    subst hchains
    obtain ⟨hr, hf, ha, ho⟩ := h
    exact ⟨by rwa [hpool], by rwa [hpool], by rwa [hpool], by rwa [hpool]⟩
  | served q id r r' hhead hr hpool hio hprogress hchains =>
    subst hchains
    exact h.served hinv hhead hr hpool hio hprogress
  | added key dataAddr payload ty id p q hq hres hp hpool hchains =>
    subst hchains
    exact h.added hinv hd hq hres hp hpool
  | completed q cur hpool hchains =>
    subst hchains
    exact h.completed hinv' hpool

-- ======== the result

/-- Along every run the chains at the device heads are finite, disjoint
and hold exactly the occupied slots, and no step of the callers panics
or hangs; along every disciplined run the chain behind each current
request has at most one descent. -/
theorem block_queue_sweeps_once [DecidableEq B] (flags : B → BufferFlags)
    (as : List (BlockAct K B)) :
    (∀ s ∈ visited BlockSys.step (BlockSys.new flags) as,
      (∃ chains, QueueShape s.manager chains) ∧
        ∀ a, s.Enabled a → (s.step a).isSome) ∧
    (Guarded BlockSys.step BlockSys.Disciplined (BlockSys.new flags) as →
      ∀ s ∈ visited BlockSys.step (BlockSys.new flags) as,
        ∀ q l, Follows s.manager.pool.next (s.manager.head q) l →
          descents s.manager.pool.inOrder l.tail ≤ 1) := by
  constructor
  · intro s hs
    have hinv : ∃ chains, s.Inv chains := by
      refine Reachable.invariant
        (I := fun s : BlockSys K B => ∃ chains, s.Inv chains)
        ⟨_, BlockSys.Inv.new flags⟩ ?_ (Reachable.of_visited .refl s hs)
      rintro s a s' ⟨chains, hi⟩ hstep
      obtain ⟨chains', hi', -⟩ := hi.step hstep
      exact ⟨chains', hi'⟩
    obtain ⟨chains, hi⟩ := hinv
    exact ⟨⟨chains, hi.shape⟩, fun a ha => hi.step_isSome ha⟩
  · intro hg s hs q l hl
    have hinv : ∃ chains, s.Inv chains ∧ s.Sweep chains := by
      refine Guarded.visited
        (I := fun s : BlockSys K B => ∃ chains, s.Inv chains ∧ s.Sweep chains)
        ?_ ⟨fun _ => [], BlockSys.Inv.new flags, ?_⟩ hg s hs
      · rintro s a s' ⟨chains, hi, hsw⟩ hd hstep
        obtain ⟨chains', hi', hm⟩ := hi.step hstep
        exact ⟨chains', hi', hsw.moved hi hd hi' hm⟩
      · constructor <;> simp [BlockSys.new]
    obtain ⟨chains, hi, hsw⟩ := hinv
    rw [hl.unique (hi.shape.follows q)]
    exact hsw.tail_le q

/-- Two blocks read from one device, the first served while the second
waits. -/
def twoReads : List (BlockAct Unit Unit) :=
  [.registerDriver 3 (), .reserve .read,
    .addRequest ⟨⟨0x0301#16⟩, 9#32⟩ 0 .paging, .reserve .read,
    .addRequest ⟨⟨0x0301#16⟩, 4#32⟩ 1024 .paging, .advanceOneSector 3]

/-- A disciplined run with both kinds of neighbours. -/
theorem block_queue_sweeps_once_two :
    Guarded BlockSys.step BlockSys.Disciplined
      (BlockSys.new fun _ : Unit => ⟨false, false, false⟩) twoReads ∧
    ∀ s ∈ visited BlockSys.step
        (BlockSys.new fun _ : Unit => ⟨false, false, false⟩) twoReads,
      ∀ q l, Follows s.manager.pool.next (s.manager.head q) l →
        descents s.manager.pool.inOrder l.tail ≤ 1 := by
  have hg : Guarded BlockSys.step BlockSys.Disciplined
      (BlockSys.new fun _ : Unit => ⟨false, false, false⟩) twoReads := by
    refine ⟨trivial, trivial, ?_, trivial, ?_, trivial, trivial⟩
    · rintro ty id hres
      refine ⟨?_, ?_⟩
      · intro i r hr; cases hr
      · intro i r hr; cases hr
    · rintro ty id hres
      refine ⟨?_, ?_⟩
      · intro i r hr _ _
        by_cases hi : i = (⟨31, by decide⟩ : RequestId)
        · subst hi
          cases hr
          exact .inr (by decide)
        · have hnone := (update_of_ne hi _ _).symm.trans
            ((update_of_ne hi _ _).symm.trans hr)
          cases hnone
      · intro i r hr
        cases hr
        decide
  exact ⟨hg, (block_queue_sweeps_once _ twoReads).2 hg⟩

end LinuxRs.Driver
