/-
Finite maps in key order.

The entries are a list with strictly increasing keys, and the map carries the
proof: two maps that answer every key alike are the same map. Walking the
entries meets each key once.
-/
import Mathlib.Data.List.Sort
import Mathlib.Order.Basic

namespace LinuxRs.Lib

universe u v

variable {K : Type u} {V : Type v} [LinearOrder K]

-- ======== entries

def lookupEntries (k : K) : List (K × V) → Option V
  | [] => none
  | e :: rest => if e.1 = k then some e.2 else lookupEntries k rest

def insertEntries (k : K) (x : V) : List (K × V) → List (K × V)
  | [] => [(k, x)]
  | e :: rest =>
    if k < e.1 then (k, x) :: e :: rest
    else if k = e.1 then (k, x) :: rest
    else e :: insertEntries k x rest

theorem lookupEntries_insert (k k' : K) (x : V) (l : List (K × V)) :
    lookupEntries k' (insertEntries k x l)
      = if k' = k then some x else lookupEntries k' l := by
  induction l with
  | nil =>
    unfold insertEntries lookupEntries lookupEntries
    by_cases h : k' = k
    · rw [if_pos h, if_pos h.symm]
    · rw [if_neg h, if_neg (Ne.symm h)]
  | cons e rest ih =>
    unfold insertEntries
    split
    next =>
      unfold lookupEntries
      by_cases h : k' = k
      · rw [if_pos h, if_pos h.symm]
      · rw [if_neg h, if_neg (Ne.symm h)]
        rfl
    next =>
      split
      next heq =>
        unfold lookupEntries
        rw [← heq]
        by_cases h : k' = k
        · rw [if_pos h, if_pos h.symm]
        · rw [if_neg h, if_neg (Ne.symm h), if_neg (Ne.symm h)]
      next hne =>
        unfold lookupEntries
        rw [ih]
        by_cases h : k' = k
        · subst h
          rw [if_pos rfl, if_pos rfl, if_neg (Ne.symm hne)]
        · rw [if_neg h, if_neg h]

theorem mem_insertEntries {k : K} {x : V} {l : List (K × V)} {e : K × V}
    (h : e ∈ insertEntries k x l) : e = (k, x) ∨ e ∈ l := by
  induction l with
  | nil => exact .inl (List.mem_singleton.mp h)
  | cons d rest ih =>
    unfold insertEntries at h
    split at h
    next => exact List.mem_cons.mp h
    next =>
      split at h
      next =>
        rcases List.mem_cons.mp h with rfl | h
        · exact .inl rfl
        · exact .inr (List.mem_cons_of_mem _ h)
      next =>
        rcases List.mem_cons.mp h with rfl | h
        · exact .inr List.mem_cons_self
        · rcases ih h with rfl | h
          · exact .inl rfl
          · exact .inr (List.mem_cons_of_mem _ h)

def KeysSorted (l : List (K × V)) : Prop := l.Pairwise fun a b => a.1 < b.1

theorem KeysSorted.insert {k : K} {x : V} {l : List (K × V)} (h : KeysSorted l) :
    KeysSorted (insertEntries k x l) := by
  unfold KeysSorted at *
  induction l with
  | nil => exact List.pairwise_singleton _ _
  | cons e rest ih =>
    obtain ⟨hhead, htail⟩ := List.pairwise_cons.mp h
    unfold insertEntries
    split
    next hlt =>
      refine List.pairwise_cons.mpr ⟨fun d hd => ?_, h⟩
      rcases List.mem_cons.mp hd with rfl | hd
      · exact hlt
      · exact hlt.trans (hhead d hd)
    next hge =>
      split
      next heq =>
        refine List.pairwise_cons.mpr ⟨fun d hd => ?_, htail⟩
        show k < d.1
        rw [heq]
        exact hhead d hd
      next hne =>
        refine List.pairwise_cons.mpr ⟨fun d hd => ?_, ih htail⟩
        rcases mem_insertEntries hd with rfl | hd
        · exact lt_of_le_of_ne (not_lt.mp hge) (Ne.symm hne)
        · exact hhead d hd

/-- In a sorted list what is looked up is what is there. -/
theorem KeysSorted.lookup_iff {l : List (K × V)} (h : KeysSorted l) (k : K) (x : V) :
    lookupEntries k l = some x ↔ (k, x) ∈ l := by
  unfold KeysSorted at h
  induction l with
  | nil => exact ⟨fun hx => (nomatch hx), fun hx => (nomatch hx)⟩
  | cons e rest ih =>
    obtain ⟨hhead, htail⟩ := List.pairwise_cons.mp h
    unfold lookupEntries
    split
    next hkey =>
      constructor
      · intro hx
        obtain rfl := Option.some.inj hx
        rw [← hkey]
        exact List.mem_cons_self
      · intro hmem
        rcases List.mem_cons.mp hmem with rfl | hmem
        · rfl
        · exact absurd (hhead _ hmem) (by rw [hkey]; exact lt_irrefl k)
    next hkey =>
      rw [ih htail]
      constructor
      · exact List.mem_cons_of_mem e
      · intro hmem
        rcases List.mem_cons.mp hmem with rfl | hmem
        · exact absurd rfl hkey
        · exact hmem

theorem lookupEntries_cons (k : K) (e : K × V) (rest : List (K × V)) :
    lookupEntries k (e :: rest)
      = if e.1 = k then some e.2 else lookupEntries k rest := rfl

theorem KeysSorted.lookup_head {e : K × V} {rest : List (K × V)}
    (h : KeysSorted (e :: rest)) : lookupEntries e.1 rest = none := by
  obtain ⟨hhead, htail⟩ := List.pairwise_cons.mp h
  cases hv : lookupEntries e.1 rest with
  | none => rfl
  | some x =>
    have hmem := (KeysSorted.lookup_iff htail e.1 x).mp hv
    exact absurd (hhead _ hmem) (lt_irrefl _)

theorem KeysSorted.tail {e : K × V} {rest : List (K × V)}
    (h : KeysSorted (e :: rest)) : KeysSorted rest :=
  (List.pairwise_cons.mp h).2

-- ======== maps

/-- A map as the list of its entries, in the order of the keys. -/
structure SortedMap (K : Type u) (V : Type v) [LinearOrder K] where
  entries : List (K × V)
  sorted : KeysSorted entries

namespace SortedMap

def empty : SortedMap K V := ⟨[], List.Pairwise.nil⟩

def get (m : SortedMap K V) (k : K) : Option V := lookupEntries k m.entries

def insert (m : SortedMap K V) (k : K) (x : V) : SortedMap K V :=
  ⟨insertEntries k x m.entries, m.sorted.insert⟩

def erase (m : SortedMap K V) (k : K) : SortedMap K V :=
  ⟨m.entries.filter fun e => e.1 ≠ k, List.Pairwise.filter _ m.sorted⟩

@[simp] theorem get_empty (k : K) : (empty : SortedMap K V).get k = none := rfl

theorem get_insert (m : SortedMap K V) (k k' : K) (x : V) :
    (m.insert k x).get k' = if k' = k then some x else m.get k' :=
  lookupEntries_insert k k' x m.entries

theorem get_iff (m : SortedMap K V) (k : K) (x : V) :
    m.get k = some x ↔ (k, x) ∈ m.entries := m.sorted.lookup_iff k x

theorem get_erase (m : SortedMap K V) (k k' : K) :
    (m.erase k).get k' = if k' = k then none else m.get k' := by
  apply Option.ext
  intro x
  rw [get_iff]
  show (k', x) ∈ m.entries.filter _ ↔ _
  rw [List.mem_filter]
  by_cases h : k' = k
  · simp [h]
  · simp [h, get_iff]

theorem ext_get {m m' : SortedMap K V} (h : ∀ k, m.get k = m'.get k) : m = m' := by
  have hmem : ∀ e, e ∈ m.entries ↔ e ∈ m'.entries := by
    intro e
    rw [← Prod.mk.eta (p := e), ← get_iff, ← get_iff, h]
  have hnodup : ∀ m : SortedMap K V, m.entries.Nodup := by
    intro m
    refine m.sorted.imp fun {a b} hlt heq => ?_
    rw [heq] at hlt
    exact lt_irrefl _ hlt
  have hperm : m.entries.Perm m'.entries :=
    (List.perm_ext_iff_of_nodup (hnodup m) (hnodup m')).mpr hmem
  have heq : m.entries = m'.entries :=
    hperm.eq_of_pairwise (fun a b _ _ hab hba => absurd hab (lt_asymm hba))
      m.sorted m'.sorted
  cases m
  cases m'
  cases heq
  rfl

theorem get_foldl_insert {l : List (K × V)} (hl : KeysSorted l) :
    ∀ (m : SortedMap K V) (k : K),
      (l.foldl (fun n e => n.insert e.1 e.2) m).get k
        = (lookupEntries k l).or (m.get k) := by
  induction l with
  | nil => exact fun _ _ => rfl
  | cons e rest ih =>
    intro m k
    rw [List.foldl_cons, ih hl.tail, get_insert, lookupEntries_cons]
    by_cases hk : e.1 = k
    · subst hk
      rw [hl.lookup_head, if_pos rfl, if_pos rfl]
      rfl
    · rw [if_neg hk, if_neg (Ne.symm hk)]

theorem foldl_insert_entries (m : SortedMap K V) :
    m.entries.foldl (fun n e => n.insert e.1 e.2) .empty = m := by
  apply ext_get
  intro k
  rw [get_foldl_insert m.sorted, get_empty, Option.or_none]
  rfl

end SortedMap

end LinuxRs.Lib
