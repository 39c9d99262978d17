/-
Counted resources with two kinds of holders.

# The setting

A resource `f` has a count. It is held by single holders `B` and by shared
holders `P`, each of which holds at most one resource, and by a list of
handles that are elsewhere. A shared holder has a place; the shared holders
of one resource are all at one place. A resource that a single holder or a
loose handle has is not shared at all.

# The rules

Each rule moves one handle: a resource is taken, put into a holder, shared
with one more holder, or given back. The count stays the number of handles.
-/
import LinuxRs.Lib.Count

namespace LinuxRs.Lib

open Function (update update_self update_of_ne)

universe u v w x

variable {F : Type u} {B : Type v} {P : Type w} {L : Type x} [DecidableEq F]

theorem pointers_two {T : Type v} [Fintype T] {f : T → Option F} {a b : T}
    {y : F} (ha : f a = some y) (hb : f b = some y) (hab : a ≠ b) :
    2 ≤ pointers f y :=
  Finset.one_lt_card.mpr ⟨a, by simp [ha], b, by simp [hb], hab⟩

/-- The counts of the tracked resources are the numbers of their handles. -/
structure Ledger [Fintype B] [Fintype P] (place : P → L) (tracked : F → Prop)
    (count : F → Nat) (loose : List F) (single : B → Option F)
    (shared : P → Option F) : Prop where
  exact : ∀ f, tracked f → count f =
    pointers single f + pointers shared f + loose.count f
  loose_tracked : ∀ f ∈ loose, tracked f
  single_tracked : ∀ b f, single b = some f → tracked f
  shared_tracked : ∀ p f, shared p = some f → tracked f
  loose_one : ∀ f ∈ loose, count f = 1
  single_one : ∀ b f, single b = some f → count f = 1
  one_place : ∀ p q f, shared p = some f → shared q = some f →
    place p = place q

namespace Ledger

variable [Fintype B] [Fintype P] {place : P → L} {tracked : F → Prop}
  {count : F → Nat} {K : List F} {T : B → Option F} {D : P → Option F}
  {f : F} {b b' : B} {p q : P}

-- ======== what the counts say

theorem shared_pos (h : Ledger place tracked count K T D)
    (hp : D p = some f) : 0 < count f := by
  have hpos := pointers_pos hp
  rw [h.exact f (h.shared_tracked p f hp)]
  omega

theorem shared_unique (h : Ledger place tracked count K T D)
    (hone : count f = 1) (hp : D p = some f) (hq : D q = some f) :
    p = q := by
  by_contra hne
  have htwo := pointers_two hp hq hne
  have hexact := h.exact f (h.shared_tracked p f hp)
  omega

theorem single_unique (h : Ledger place tracked count K T D)
    (hb : T b = some f) (hb' : T b' = some f) : b = b' := by
  by_contra hne
  have htwo := pointers_two hb hb' hne
  have hexact := h.exact f (h.single_tracked b f hb)
  have hone := h.single_one b f hb
  omega

theorem shared_ne_single (h : Ledger place tracked count K T D)
    (hb : T b = some f) : D p ≠ some f := by
  intro hp
  have hpos := pointers_pos hp
  have hpos' := pointers_pos hb
  have hexact := h.exact f (h.single_tracked b f hb)
  have hone := h.single_one b f hb
  omega

theorem not_loose_of_single (h : Ledger place tracked count K T D)
    (hb : T b = some f) : f ∉ K := by
  intro hf
  have hpos := pointers_pos hb
  have hpos' := List.count_pos_iff.mpr hf
  have hexact := h.exact f (h.single_tracked b f hb)
  have hone := h.single_one b f hb
  omega

theorem not_loose_of_shared (h : Ledger place tracked count K T D)
    (hp : D p = some f) : f ∉ K := by
  intro hf
  have hpos := pointers_pos hp
  have hpos' := List.count_pos_iff.mpr hf
  have hexact := h.exact f (h.shared_tracked p f hp)
  have hone := h.loose_one f hf
  omega

theorem no_handle (h : Ledger place tracked count K T D)
    (hzero : count f = 0) :
    f ∉ K ∧ (∀ b, T b ≠ some f) ∧ ∀ p, D p ≠ some f := by
  refine ⟨fun hf => ?_, fun b hb => ?_, fun p hp => ?_⟩
  · have hone := h.loose_one f hf
    omega
  · have hone := h.single_one b f hb
    omega
  · have hpos := h.shared_pos hp
    omega

theorem shared_le {A : Type x} [Fintype A]
    (h : Ledger place tracked count K T D) (owner : P → A)
    (hinj : ∀ p q, owner p = owner q → place p = place q → p = q)
    (hp : D p = some f) : count f ≤ Fintype.card A := by
  have hexact := h.exact f (h.shared_tracked p f hp)
  have hT : pointers T f = 0 :=
    pointers_eq_zero fun b hb => h.shared_ne_single hb hp
  have hK : K.count f = 0 := List.count_eq_zero.mpr (h.not_loose_of_shared hp)
  have hcard : pointers D f ≤ Fintype.card A := by
    refine Finset.card_le_card_of_injOn owner
      (fun _ _ => Finset.mem_univ _) fun q hq r hr heq => ?_
    have hq' := (Finset.mem_filter.mp (Finset.mem_coe.mp hq)).2
    have hr' := (Finset.mem_filter.mp (Finset.mem_coe.mp hr)).2
    exact hinj q r heq (h.one_place q r f hq' hr')
  omega

-- ======== the rules

theorem perm {K' : List F} (hperm : K.Perm K')
    (h : Ledger place tracked count K T D) :
    Ledger place tracked count K' T D where
  exact := fun f hf => by rw [← hperm.count_eq]; exact h.exact f hf
  loose_tracked := fun f hf => h.loose_tracked f (hperm.mem_iff.mpr hf)
  single_tracked := h.single_tracked
  shared_tracked := h.shared_tracked
  loose_one := fun f hf => h.loose_one f (hperm.mem_iff.mpr hf)
  single_one := h.single_one
  one_place := h.one_place

/-- A free frame is taken in hand. -/
theorem take (h : Ledger place tracked count K T D) (hf : tracked f)
    (hzero : count f = 0) :
    Ledger place tracked (update count f 1) (f :: K) T D := by
  obtain ⟨hloose, hsingle, hshared⟩ := h.no_handle hzero
  have hother : ∀ {g}, g ≠ f → update count f 1 g = count g :=
    fun hne => update_of_ne hne _ _
  refine ⟨fun g hg => ?_, ?_, h.single_tracked, h.shared_tracked, ?_,
    fun b g hb => ?_, h.one_place⟩
  · have hexact := h.exact g hg
    by_cases hgf : g = f
    · subst hgf
      rw [update_self, List.count_cons_self]
      omega
    · rw [hother hgf, List.count_cons_of_ne (Ne.symm hgf)]
      exact hexact
  · intro g hg
    rcases List.mem_cons.mp hg with rfl | hg
    · exact hf
    · exact h.loose_tracked g hg
  · intro g hg
    rcases List.mem_cons.mp hg with rfl | hg
    · exact update_self ..
    · rw [hother fun heq => hloose (heq ▸ hg)]
      exact h.loose_one g hg
  · rw [hother fun heq => hsingle b (heq ▸ hb)]
    exact h.single_one b g hb

/-- A frame in hand is given back. -/
theorem giveBack (h : Ledger place tracked count (f :: K) T D) :
    Ledger place tracked (update count f (count f - 1)) K T D := by
  have hmem : f ∈ f :: K := List.mem_cons_self
  have hone := h.loose_one f hmem
  have hself := h.exact f (h.loose_tracked f hmem)
  rw [List.count_cons_self] at hself
  have hK : f ∉ K := fun hf => by
    have hpos := List.count_pos_iff.mpr hf
    omega
  have hother : ∀ {g}, g ≠ f →
      update count f (count f - 1) g = count g :=
    fun hne => update_of_ne hne _ _
  refine ⟨fun g hg => ?_, fun g hg => h.loose_tracked g (.tail _ hg),
    h.single_tracked, h.shared_tracked, fun g hg => ?_, fun b g hb => ?_,
    h.one_place⟩
  · have hexact := h.exact g hg
    by_cases hgf : g = f
    · subst hgf
      rw [update_self]
      omega
    · rw [hother hgf]
      rw [List.count_cons_of_ne (Ne.symm hgf)] at hexact
      exact hexact
  · rw [hother fun heq => hK (heq ▸ hg)]
    exact h.loose_one g (.tail _ hg)
  · rw [hother fun heq => h.not_loose_of_single (heq ▸ hb) hmem]
    exact h.single_one b g hb

/-- A frame in hand becomes the one that a slot points to. -/
theorem toSingle [DecidableEq B]
    (h : Ledger place tracked count (f :: K) T D) (hb : T b = none) :
    Ledger place tracked count K (update T b (some f)) D := by
  have hmem : f ∈ f :: K := List.mem_cons_self
  refine ⟨fun g hg => ?_, fun g hg => h.loose_tracked g (.tail _ hg),
    fun c g hc => ?_, h.shared_tracked,
    fun g hg => h.loose_one g (.tail _ hg), fun c g hc => ?_, h.one_place⟩
  · have hexact := h.exact g hg
    have hmove := pointers_update T b (some f) g
    rw [hb, share_none] at hmove
    by_cases hgf : g = f
    · subst hgf
      rw [List.count_cons_self] at hexact
      rw [share_self] at hmove
      omega
    · rw [List.count_cons_of_ne (Ne.symm hgf)] at hexact
      rw [share_of_ne (Ne.symm hgf)] at hmove
      omega
  · by_cases hcb : c = b
    · subst hcb
      rw [update_self, Option.some_inj] at hc
      exact hc ▸ h.loose_tracked f hmem
    · rw [update_of_ne hcb] at hc
      exact h.single_tracked c g hc
  · by_cases hcb : c = b
    · subst hcb
      rw [update_self, Option.some_inj] at hc
      exact hc ▸ h.loose_one f hmem
    · rw [update_of_ne hcb] at hc
      exact h.single_one c g hc

/-- A frame held alone comes back into the hand. -/
theorem fromSingle [DecidableEq B]
    (h : Ledger place tracked count K T D) (hb : T b = some f) :
    Ledger place tracked count (f :: K) (update T b none) D := by
  refine ⟨fun g hg => ?_, fun g hg => ?_, fun c g hc => ?_, h.shared_tracked,
    fun g hg => ?_, fun c g hc => ?_, h.one_place⟩
  · have hexact := h.exact g hg
    have hmove := pointers_update T b none g
    rw [hb, share_none] at hmove
    by_cases hgf : g = f
    · subst hgf
      rw [List.count_cons_self]
      rw [share_self] at hmove
      omega
    · rw [List.count_cons_of_ne (Ne.symm hgf)]
      rw [share_of_ne (Ne.symm hgf)] at hmove
      omega
  · rcases List.mem_cons.mp hg with rfl | hg
    · exact h.single_tracked b g hb
    · exact h.loose_tracked g hg
  · by_cases hcb : c = b
    · subst hcb
      rw [update_self] at hc
      cases hc
    · rw [update_of_ne hcb] at hc
      exact h.single_tracked c g hc
  · rcases List.mem_cons.mp hg with rfl | hg
    · exact h.single_one b g hb
    · exact h.loose_one g hg
  · by_cases hcb : c = b
    · subst hcb
      rw [update_self] at hc
      cases hc
    · rw [update_of_ne hcb] at hc
      exact h.single_one c g hc

theorem exact_update [DecidableEq P] (h : Ledger place tracked count K T D)
    {o : Option F} {n : F → Nat} {K' : List F}
    (hn : ∀ g, n g + Lib.share (D p) g + K.count g
      = count g + Lib.share o g + K'.count g) {g : F} (hg : tracked g) :
    n g = pointers T g + pointers (update D p o) g + K'.count g := by
  have hexact := h.exact g hg
  have hmove := pointers_update D p o g
  have hstep := hn g
  omega

/-- A frame in hand becomes a page of a space. -/
theorem toShared [DecidableEq P]
    (h : Ledger place tracked count (f :: K) T D) (hp : D p = none) :
    Ledger place tracked count K T (update D p (some f)) := by
  have hmem : f ∈ f :: K := List.mem_cons_self
  have hnew : ∀ q, D q ≠ some f := fun q hq =>
    h.not_loose_of_shared hq hmem
  refine ⟨fun g hg => h.exact_update (fun g => ?_) hg,
    fun g hg => h.loose_tracked g (.tail _ hg), h.single_tracked,
    fun c g hc => ?_, fun g hg => h.loose_one g (.tail _ hg), h.single_one,
    fun c d g hc hd => ?_⟩
  · rw [hp, share_none]
    by_cases hgf : g = f
    · subst hgf
      rw [List.count_cons_self, share_self]
      omega
    · rw [List.count_cons_of_ne (Ne.symm hgf), share_of_ne (Ne.symm hgf)]
  · by_cases hcp : c = p
    · subst hcp
      rw [update_self, Option.some_inj] at hc
      exact hc ▸ h.loose_tracked f hmem
    · rw [update_of_ne hcp] at hc
      exact h.shared_tracked c g hc
  · by_cases hcp : c = p <;> by_cases hdp : d = p
    · rw [hcp, hdp]
    · subst hcp
      rw [update_self, Option.some_inj] at hc
      rw [update_of_ne hdp] at hd
      exact absurd (hc ▸ hd) (hnew d)
    · subst hdp
      rw [update_self, Option.some_inj] at hd
      rw [update_of_ne hcp] at hc
      exact absurd (hd ▸ hc) (hnew c)
    · rw [update_of_ne hcp] at hc
      rw [update_of_ne hdp] at hd
      exact h.one_place c d g hc hd

/-- A frame is pointed to once more, from the same place. -/
theorem share [DecidableEq P] (h : Ledger place tracked count K T D)
    (hp : D p = some f) (hq : D q = none) (hplace : place p = place q) :
    Ledger place tracked (update count f (count f + 1)) K T
      (update D q (some f)) := by
  have hother : ∀ {g}, g ≠ f →
      update count f (count f + 1) g = count g :=
    fun hne => update_of_ne hne _ _
  refine ⟨fun g hg => h.exact_update (fun g => ?_) hg, h.loose_tracked,
    h.single_tracked, fun c g hc => ?_, fun g hg => ?_, fun b g hb => ?_,
    fun c d g hc hd => ?_⟩
  · rw [hq, share_none]
    by_cases hgf : g = f
    · subst hgf
      rw [update_self, share_self]
    · rw [hother hgf, share_of_ne (Ne.symm hgf)]
  · by_cases hcq : c = q
    · subst hcq
      rw [update_self, Option.some_inj] at hc
      exact hc ▸ h.shared_tracked p f hp
    · rw [update_of_ne hcq] at hc
      exact h.shared_tracked c g hc
  · rw [hother fun heq => h.not_loose_of_shared hp (heq ▸ hg)]
    exact h.loose_one g hg
  · rw [hother fun heq => h.shared_ne_single hb (heq ▸ hp)]
    exact h.single_one b g hb
  · by_cases hcq : c = q <;> by_cases hdq : d = q
    · rw [hcq, hdq]
    · subst hcq
      rw [update_self, Option.some_inj] at hc
      rw [update_of_ne hdq] at hd
      exact hplace.symm.trans (h.one_place p d f hp (hc ▸ hd))
    · subst hdq
      rw [update_self, Option.some_inj] at hd
      rw [update_of_ne hcq] at hc
      exact (h.one_place c p f (hd ▸ hc) hp).trans hplace
    · rw [update_of_ne hcq] at hc
      rw [update_of_ne hdq] at hd
      exact h.one_place c d g hc hd

/-- A pointer to a frame is taken away. -/
theorem unshare [DecidableEq P] (h : Ledger place tracked count K T D)
    (hp : D p = some f) :
    Ledger place tracked (update count f (count f - 1)) K T
      (update D p none) := by
  have hpos := h.shared_pos hp
  have hother : ∀ {g}, g ≠ f →
      update count f (count f - 1) g = count g :=
    fun hne => update_of_ne hne _ _
  have hkept : ∀ {c g}, update D p none c = some g →
      D c = some g := by
    intro c g hc
    by_cases hcp : c = p
    · subst hcp
      rw [update_self] at hc
      cases hc
    · rwa [update_of_ne hcp] at hc
  refine ⟨fun g hg => h.exact_update (fun g => ?_) hg, h.loose_tracked,
    h.single_tracked, fun c g hc => h.shared_tracked c g (hkept hc),
    fun g hg => ?_, fun b g hb => ?_,
    fun c d g hc hd => h.one_place c d g (hkept hc) (hkept hd)⟩
  · rw [hp, share_none]
    by_cases hgf : g = f
    · subst hgf
      rw [update_self, share_self]
      omega
    · rw [hother hgf, share_of_ne (Ne.symm hgf)]
  · rw [hother fun heq => h.not_loose_of_shared hp (heq ▸ hg)]
    exact h.loose_one g hg
  · rw [hother fun heq => h.shared_ne_single hb (heq ▸ hp)]
    exact h.single_one b g hb

end Ledger

end LinuxRs.Lib
