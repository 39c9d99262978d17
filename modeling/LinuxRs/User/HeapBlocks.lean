/-
What the parts of the allocator compute: rounding, placement, cutting a
free block, and putting one back.

# Cutting

A placement divides the free block into a prefix, the allocated block and
a suffix (`Placement.Divides`). A prefix or suffix that is too small for a
free block is left to the allocated block, so nothing is lost.

# Putting back

Insertion keeps the list spaced, adds the size of the block, and stays
apart from everything that the list and the block were apart from.
-/
import LinuxRs.User.Allocator

namespace LinuxRs.User

open LinuxRs.Lib Extent

-- ======== rounding

theorem and_mask_eq {x k : Nat} (hx : x < 2 ^ 32) (hk : k ≤ 32) :
    x &&& (2 ^ 32 - 1 - (2 ^ k - 1)) = x - x % 2 ^ k := by
  have hpow : 2 ^ k ≤ 2 ^ 32 := Nat.pow_le_pow_right (by decide) hk
  have hmask : 2 ^ 32 - 1 - (2 ^ k - 1) = 2 ^ 32 - ((2 ^ k - 1) + 1) := by
    omega
  have hround : x - x % 2 ^ k = 2 ^ k * (x / 2 ^ k) := by
    have hdiv := Nat.div_add_mod x (2 ^ k)
    omega
  rw [hmask, hround]
  apply Nat.eq_of_testBit_eq
  intro i
  rw [Nat.testBit_and, Nat.testBit_two_pow_sub_succ (by omega),
    Nat.testBit_two_pow_sub_one, Nat.testBit_two_pow_mul,
    Nat.testBit_div_two_pow]
  by_cases hi : i < 32
  · by_cases hki : k ≤ i
    · simp [hi, hki]
    · simp [hki, Nat.lt_of_not_le hki]
  · have hbit : x.testBit i = false := by
      apply Nat.testBit_lt_two_pow
      exact hx.trans_le (Nat.pow_le_pow_right (by decide) (by omega))
    by_cases hki : k ≤ i
    · simp [hbit, hki]
    · simp [hbit, hki]

/-- A rounded address: a multiple of the alignment, less than one alignment
up. -/
structure RoundsTo (addr align r : Nat) : Prop where
  le : addr ≤ r
  lt : r < addr + align
  dvd : align ∣ r

/-- Rounding up gives the next multiple, or leaves the address space. -/
theorem alignUp_cases {addr align : Nat} (hpow : align.isPowerOfTwo)
    (hle : align ≤ usizeLimit) (haddr : addr < usizeLimit) :
    (addr + align - 1 < usizeLimit ∧ RoundsTo addr align (alignUp addr align)) ∨
      (usizeLimit ≤ addr + align - 1 ∧ alignUp addr align = 0) := by
  obtain ⟨k, rfl⟩ := hpow
  have hk : k ≤ 32 := by
    by_contra hgt
    have hbig : 2 ^ 33 ≤ 2 ^ k := Nat.pow_le_pow_right (by decide) (by omega)
    have hle : 2 ^ k ≤ 0x100000000 := hle
    omega
  have hpos : 0 < 2 ^ k := Nat.two_pow_pos k
  have hround : alignUp addr (2 ^ k) = (addr + 2 ^ k - 1) % usizeLimit
        - (addr + 2 ^ k - 1) % usizeLimit % 2 ^ k :=
    and_mask_eq (Nat.mod_lt _ (by decide)) hk
  by_cases hwrap : addr + 2 ^ k - 1 < usizeLimit
  · refine .inl ⟨hwrap, ?_⟩
    rw [Nat.mod_eq_of_lt hwrap] at hround
    have hmod := Nat.mod_lt (addr + 2 ^ k - 1) hpos
    have hmodle := Nat.mod_le (addr + 2 ^ k - 1) (2 ^ k)
    refine ⟨by omega, by omega, ?_⟩
    rw [hround]
    exact Nat.dvd_sub_mod _
  · refine .inr ⟨by omega, ?_⟩
    have hsmall : (addr + 2 ^ k - 1) % usizeLimit < 2 ^ k := by
      rw [Nat.mod_eq_sub_mod (by omega)]
      have hle := Nat.mod_le (addr + 2 ^ k - 1 - usizeLimit) usizeLimit
      omega
    rw [hround, Nat.mod_eq_of_lt hsmall, Nat.sub_self]

theorem headerAlign_pow : headerAlign.isPowerOfTwo := ⟨2, rfl⟩

theorem pageSize_pow : pageSize.isPowerOfTwo := ⟨12, rfl⟩

theorem Layout.payloadAlign_pow (layout : Layout) :
    (max layout.align headerAlign).isPowerOfTwo := by
  rcases max_choice layout.align headerAlign with h | h
  · rw [h]
    exact layout.align_pow
  · rw [h]
    exact headerAlign_pow

theorem Layout.align_dvd (layout : Layout) :
    layout.align ∣ max layout.align headerAlign := by
  rcases Nat.le_total headerAlign layout.align with h | h
  · rw [max_eq_left h]
  · rw [max_eq_right h]
    obtain ⟨k, hk⟩ := layout.align_pow
    rw [hk] at h ⊢
    have hk2 : k ≤ 2 := by
      apply (Nat.pow_le_pow_iff_right (by decide : 1 < 2)).mp
      exact h
    exact Nat.pow_dvd_pow 2 hk2

-- ======== placement

/-- A placement divides a free block into prefix, allocated block and
suffix, and the allocated block holds the header and the payload. -/
structure Placement.Divides (p : Placement) (layout : Layout)
    (block : FreeBlock) : Prop where
  prefix_eq : p.blockStart = block.start + p.prefixSize
  block_eq : p.suffixStart = p.blockStart + p.blockSize
  suffix_eq : p.suffixStart + p.suffixSize = block.stop
  header : p.blockStart ≤ p.headerStart
  payload : p.payloadStart = p.headerStart + headerSize
  fits : p.payloadStart + layout.size ≤ p.suffixStart
  aligned : layout.align ∣ p.payloadStart
  prefix_min : p.prefixSize = 0 ∨ minFreeBlockSize ≤ p.prefixSize
  suffix_min : p.suffixSize = 0 ∨ minFreeBlockSize ≤ p.suffixSize

theorem checkedAdd_some {a b c : Nat} (h : checkedAdd a b = some c) :
    c = a + b ∧ a + b < usizeLimit := by
  unfold checkedAdd at h
  split at h
  next hlt => exact ⟨(Option.some.inj h).symm, hlt⟩
  next => cases h

theorem checkedSub_some {a b c : Nat} (h : checkedSub a b = some c) :
    b ≤ a ∧ c = a - b := by
  unfold checkedSub at h
  split at h
  next hle => exact ⟨hle, (Option.some.inj h).symm⟩
  next => cases h

theorem Layout.payload_cases (layout : Layout) {addr : Nat}
    (haddr : addr < usizeLimit) : RoundsTo addr (max layout.align headerAlign)
        (alignUp addr (max layout.align headerAlign)) ∨
      alignUp addr (max layout.align headerAlign) = 0 := by
  have hle : max layout.align headerAlign ≤ usizeLimit := by
    have hfits := layout.fits
    unfold usizeLimit headerAlign
    omega
  rcases alignUp_cases layout.payloadAlign_pow hle haddr with h | h
  · exact .inl h.2
  · exact .inr h.2

theorem Placement.cut_divides {layout : Layout} {block : FreeBlock}
    {payload : Nat} (hstart : block.start + headerSize ≤ payload)
    (hend : payload + layout.size ≤ block.stop)
    (hdvd : layout.align ∣ payload) :
    (Placement.cut block.start block.stop (payload - headerSize) payload
      (payload + layout.size)).Divides layout block := by
  constructor <;> dsimp only [Placement.cut]
  case prefix_eq => split_ifs <;> omega
  case block_eq => split_ifs <;> omega
  case suffix_eq => split_ifs <;> omega
  case header => split_ifs <;> omega
  case payload => omega
  case fits => split_ifs <;> omega
  case aligned => exact hdvd
  case prefix_min => split_ifs <;> omega
  case suffix_min => split_ifs <;> omega

/-- A placement cuts its block into what comes before, what is used, and the
rest. -/
theorem Placement.new_divides {p : Placement} {layout : Layout}
    {block : FreeBlock}
    (h : Placement.new block.start block.size layout = some p) :
    p.Divides layout block := by
  obtain ⟨blockEnd, hend, h⟩ := Option.bind_eq_some_iff.mp h
  obtain ⟨first, hfirst, h⟩ := Option.bind_eq_some_iff.mp h
  obtain ⟨headerStart, hheader, h⟩ := Option.bind_eq_some_iff.mp h
  obtain ⟨requestedEnd, hreq, h⟩ := Option.bind_eq_some_iff.mp h
  obtain ⟨rfl, -⟩ := checkedAdd_some hend
  obtain ⟨rfl, hlt⟩ := checkedAdd_some hfirst
  obtain ⟨hle, rfl⟩ := checkedSub_some hheader
  obtain ⟨rfl, -⟩ := checkedAdd_some hreq
  split at h
  next => cases h
  next hfit =>
    cases h
    have hround : RoundsTo (block.start + headerSize)
        (max layout.align headerAlign) (alignUp (block.start + headerSize)
          (max layout.align headerAlign)) := by
      rcases layout.payload_cases hlt with h | h
      · exact h
      · rw [h] at hle
        cases hle
    apply Placement.cut_divides hround.le
    · exact Nat.le_of_not_lt hfit
    · exact layout.align_dvd.trans hround.dvd

-- ======== cutting

section Cut

variable {p : Placement} {layout : Layout} {block : FreeBlock}

theorem Placement.Divides.within (h : p.Divides layout block) :
    Within ⟨p.blockStart, p.blockSize⟩ block := by
  have hprefix := h.prefix_eq
  have hblock := h.block_eq
  have hsuffix := h.suffix_eq
  unfold Within stop at *
  dsimp only
  omega

theorem Placement.Divides.remainder_mem (h : p.Divides layout block)
    {b : FreeBlock} (hb : b ∈ p.remainder block) :
    Within b block ∧ Apart b ⟨p.blockStart, p.blockSize⟩ ∧
      minFreeBlockSize ≤ b.size := by
  have hprefix := h.prefix_eq
  have hblock := h.block_eq
  have hsuffix := h.suffix_eq
  have hb : (b = ⟨block.start, p.prefixSize⟩ ∧ minFreeBlockSize ≤ b.size) ∨
      (b = ⟨p.suffixStart, p.suffixSize⟩ ∧ minFreeBlockSize ≤ b.size) := by
    unfold Placement.remainder at hb
    split at hb
    next hmin =>
      split at hb
      next hmin' =>
        simp only [List.mem_cons, List.not_mem_nil, or_false] at hb
        rcases hb with rfl | rfl
        · exact .inl ⟨rfl, hmin⟩
        · exact .inr ⟨rfl, hmin'⟩
      next =>
        obtain rfl := List.mem_singleton.mp hb
        exact .inl ⟨rfl, hmin⟩
    next =>
      split at hb
      next hmin' =>
        obtain rfl := List.mem_singleton.mp hb
        exact .inr ⟨rfl, hmin'⟩
      next => cases hb
  unfold stop at hsuffix
  rcases hb with ⟨rfl, hmin⟩ | ⟨rfl, hmin⟩
  · refine ⟨?_, ?_, hmin⟩ <;> simp only [Within, Apart, stop] <;> omega
  · refine ⟨?_, ?_, hmin⟩ <;> simp only [Within, Apart, stop] <;> omega

theorem Placement.Divides.total_remainder (h : p.Divides layout block) :
    total (p.remainder block) + p.blockSize = block.size := by
  have hprefix := h.prefix_eq
  have hblock := h.block_eq
  have hsuffix := h.suffix_eq
  have hpmin := h.prefix_min
  have hsmin := h.suffix_min
  unfold stop at hsuffix
  unfold Placement.remainder
  split_ifs <;> simp only [total_cons, total_nil] <;> omega

theorem Placement.Divides.spaced (h : p.Divides layout block)
    {next : List FreeBlock} (hs : Spaced (block :: next)) :
    Spaced (p.remainder block ++ next) := by
  obtain ⟨hafter, hnext⟩ := List.pairwise_cons.mp hs
  refine List.pairwise_append.mpr ⟨?_, hnext, fun b hb f hf => ?_⟩
  · have hprefix := h.prefix_eq
    have hblock := h.block_eq
    have hpayload := h.payload
    have hheader := h.header
    have hfits := h.fits
    unfold Placement.remainder
    split_ifs <;> simp [stop]
    unfold headerSize at *
    omega
  · have hlast := hafter f hf
    have hin := (h.remainder_mem hb).1.2
    omega

end Cut

theorem tryAlloc_spec {layout : Layout} {free free' : List FreeBlock}
    {p : Placement} (h : tryAlloc layout free = some (free', p)) :
    ∃ pre block post, free = pre ++ block :: post ∧
      free' = pre ++ (p.remainder block ++ post) ∧ p.Divides layout block := by
  induction free generalizing free' with
  | nil => cases h
  | cons current next ih =>
    unfold tryAlloc at h
    split at h
    next p' hp =>
      cases h
      exact ⟨[], current, next, rfl, rfl, Placement.new_divides hp⟩
    next =>
      obtain ⟨r, hr, heq⟩ := Option.map_eq_some_iff.mp h
      cases heq
      obtain ⟨pre, block, post, rfl, hfree, hdiv⟩ := ih hr
      refine ⟨current :: pre, block, post, rfl, ?_, hdiv⟩
      rw [hfree]
      rfl

theorem tryAlloc_isSome {layout : Layout} {free : List FreeBlock}
    {block : FreeBlock} (hmem : block ∈ free)
    (h : (Placement.new block.start block.size layout).isSome = true) :
    (tryAlloc layout free).isSome = true := by
  induction free with
  | nil => cases hmem
  | cons current next ih =>
    unfold tryAlloc
    split
    next => rfl
    next hnone =>
      rcases List.mem_cons.mp hmem with rfl | hmem
      · rw [hnone] at h
        cases h
      · rw [Option.isSome_map]
        exact ih hmem

-- ======== putting back

/-- The same memory in other blocks. -/
structure Joins (l r : List FreeBlock) : Prop where
  total : total r = total l
  apart : ∀ e : Extent, 0 < e.size → (∀ b ∈ l, Apart e b) → ∀ b ∈ r, Apart e b
  covers : ∀ b ∈ l, ∃ c ∈ r, Within b c
  ends : ∀ b ∈ r, ∃ c ∈ l, ∃ d ∈ l,
    b.start = c.start ∧ b.stop = d.stop ∧ c.size ≤ b.size

section Insert

variable {block prev : FreeBlock} {l l' r r' rest : List FreeBlock}

theorem Joins.refl (l : List FreeBlock) : Joins l l :=
  ⟨rfl, fun _ _ h => h, fun b hb => ⟨b, hb, le_rfl, le_rfl⟩,
    fun b hb => ⟨b, hb, b, hb, rfl, rfl, le_rfl⟩⟩

theorem Joins.trans (h : Joins l r) (h' : Joins r r') : Joins l r' := by
  refine ⟨h'.total.trans h.total,
    fun e he hl => h'.apart e he (h.apart e he hl), fun b hb => ?_,
    fun b hb => ?_⟩
  · obtain ⟨c, hc, hbc⟩ := h.covers b hb
    obtain ⟨d, hd, hcd⟩ := h'.covers c hc
    exact ⟨d, hd, hbc.trans hcd⟩
  · obtain ⟨c, hc, d, hd, hstart, hstop, hsize⟩ := h'.ends b hb
    obtain ⟨c', hc', -, -, hstart', -, hsize'⟩ := h.ends c hc
    obtain ⟨-, -, d', hd', -, hstop', -⟩ := h.ends d hd
    exact ⟨c', hc', d', hd', hstart.trans hstart', hstop.trans hstop',
      hsize'.trans hsize⟩

theorem Joins.of_perm (hp : l.Perm l') (h : Joins l r) : Joins l' r := by
  refine ⟨h.total.trans (total_perm hp), fun e he hl => ?_, fun b hb => ?_,
    fun b hb => ?_⟩
  · exact h.apart e he fun b hb => hl b (hp.mem_iff.mp hb)
  · exact h.covers b (hp.mem_iff.mpr hb)
  · obtain ⟨c, hc, d, hd, hends⟩ := h.ends b hb
    exact ⟨c, hp.mem_iff.mp hc, d, hp.mem_iff.mp hd, hends⟩

theorem Joins.cons (h : Joins l r) (prev : FreeBlock) :
    Joins (prev :: l) (prev :: r) := by
  refine ⟨?_, fun e he hl b hb => ?_, fun b hb => ?_, fun b hb => ?_⟩
  · rw [total_cons, total_cons, h.total]
  · rcases List.mem_cons.mp hb with rfl | hb
    · exact hl b List.mem_cons_self
    · exact h.apart e he (fun c hc => hl c (List.mem_cons_of_mem _ hc)) b hb
  · rcases List.mem_cons.mp hb with rfl | hb
    · exact ⟨b, List.mem_cons_self, le_rfl, le_rfl⟩
    · obtain ⟨c, hc, hbc⟩ := h.covers b hb
      exact ⟨c, List.mem_cons_of_mem _ hc, hbc⟩
  · rcases List.mem_cons.mp hb with rfl | hb
    · exact ⟨b, List.mem_cons_self, b, List.mem_cons_self, rfl, rfl, le_rfl⟩
    · obtain ⟨c, hc, d, hd, hends⟩ := h.ends b hb
      exact ⟨c, List.mem_cons_of_mem _ hc, d, List.mem_cons_of_mem _ hd, hends⟩

/-- Neighbours that touch become one block. -/
theorem Joins.merge {next : FreeBlock}
    (h : block.start + block.size = next.start) (rest : List FreeBlock) :
    Joins (block :: next :: rest)
      (⟨block.start, block.size + next.size⟩ :: rest) := by
  have hstop : stop ⟨block.start, block.size + next.size⟩ = next.stop := by
    unfold stop
    dsimp only
    omega
  refine ⟨?_, fun e he hl b hb => ?_, fun b hb => ?_, fun b hb => ?_⟩
  · simp only [total_cons]
    omega
  · rcases List.mem_cons.mp hb with rfl | hb
    · apply Apart.merge he (hl block List.mem_cons_self)
      rw [h]
      exact hl next (List.mem_cons_of_mem _ List.mem_cons_self)
    · exact hl b (List.mem_cons_of_mem _ (List.mem_cons_of_mem _ hb))
  · rcases List.mem_cons.mp hb with rfl | hb
    · refine ⟨_, List.mem_cons_self, le_rfl, ?_⟩
      rw [hstop]
      unfold stop
      omega
    · rcases List.mem_cons.mp hb with rfl | hb
      · refine ⟨_, List.mem_cons_self, ?_, hstop.ge⟩
        dsimp only
        omega
      · exact ⟨b, List.mem_cons_of_mem _ hb, le_rfl, le_rfl⟩
  · rcases List.mem_cons.mp hb with rfl | hb
    · exact ⟨block, List.mem_cons_self, next,
        List.mem_cons_of_mem _ List.mem_cons_self, rfl, hstop,
        Nat.le_add_right _ _⟩
    · have hb := List.mem_cons_of_mem block (List.mem_cons_of_mem next hb)
      exact ⟨b, hb, b, hb, rfl, rfl, le_rfl⟩

theorem coalesceWithNext_joins (l : List FreeBlock) :
    Joins l (coalesceWithNext l) := by
  unfold coalesceWithNext
  split
  next block next rest =>
    split
    next h => exact .merge h rest
    next => exact .refl _
  next => exact .refl _

theorem coalesceWithNext_spaced (h : Spaced rest)
    (hbefore : ∀ f ∈ rest, block.stop ≤ f.start) :
    Spaced (coalesceWithNext (block :: rest)) := by
  cases rest with
  | nil => exact List.pairwise_singleton _ _
  | cons next rest =>
    have hle : block.start + block.size ≤ next.start :=
      hbefore next List.mem_cons_self
    unfold coalesceWithNext
    dsimp only
    split
    next hmeet =>
      obtain ⟨hafter, hrest⟩ := List.pairwise_cons.mp h
      refine List.pairwise_cons.mpr ⟨fun f hf => ?_, hrest⟩
      have hgap := hafter f hf
      unfold stop at *
      dsimp only
      omega
    next hne => exact h.cons_of_lt (Nat.lt_of_le_of_ne hle hne)

theorem stop_le_of_start_le {b c : FreeBlock} (hc : 0 < c.size)
    (h : Apart b c) (hle : b.start ≤ c.start) : b.stop ≤ c.start := by
  unfold Apart stop at *
  omega

/-- Joining the neighbours of a block loses nothing. -/
theorem coalesce_between (hs : Spaced (prev :: l))
    (hpos : ∀ b ∈ prev :: l, 0 < b.size) (hblock : 0 < block.size)
    (hapart : ∀ b ∈ prev :: l, Apart block b) (hle : prev.start ≤ block.start)
    (hnext : ∀ f ∈ l, block.start ≤ f.start) : Joins (block :: prev :: l)
        (coalesceWithNext (prev :: coalesceWithNext (block :: l))) ∧
      Spaced (coalesceWithNext (prev :: coalesceWithNext (block :: l))) := by
  obtain ⟨hafter, hl⟩ := List.pairwise_cons.mp hs
  have hjoins := coalesceWithNext_joins (block :: l)
  have hspaced : Spaced (coalesceWithNext (block :: l)) := by
    apply coalesceWithNext_spaced hl
    intro f hf
    have hf' := List.mem_cons_of_mem prev hf
    exact stop_le_of_start_le (hpos f hf') (hapart f hf') (hnext f hf)
  refine ⟨?_, ?_⟩
  · have hboth := (hjoins.cons prev).trans (coalesceWithNext_joins _)
    exact hboth.of_perm (List.Perm.swap block prev l)
  · apply coalesceWithNext_spaced hspaced
    intro f hf
    obtain ⟨c, hc, -, -, hstart, -, -⟩ := hjoins.ends f hf
    rw [hstart]
    rcases List.mem_cons.mp hc with rfl | hc
    · exact stop_le_of_start_le hblock (hapart prev List.mem_cons_self).symm hle
    · exact (hafter c hc).le

/-- A freed block goes to its place in the order and is joined with its
neighbours. -/
theorem insertAfter_spec (hs : Spaced (prev :: l))
    (hpos : ∀ b ∈ prev :: l, 0 < b.size) (hblock : 0 < block.size)
    (hapart : ∀ b ∈ prev :: l, Apart block b)
    (hle : prev.start ≤ block.start) :
    Joins (block :: prev :: l) (insertAfter block prev l) ∧
      Spaced (insertAfter block prev l) := by
  induction l generalizing prev with
  | nil =>
    exact coalesce_between hs hpos hblock hapart hle nofun
  | cons next rest ih =>
    obtain ⟨hafter, htail⟩ := List.pairwise_cons.mp hs
    unfold insertAfter
    split
    next hlt =>
      obtain ⟨hjoins, hspaced⟩ := ih htail
        (fun b hb => hpos b (List.mem_cons_of_mem _ hb))
        (fun b hb => hapart b (List.mem_cons_of_mem _ hb)) hlt.le
      refine ⟨(hjoins.cons prev).of_perm (List.Perm.swap _ _ _), ?_⟩
      refine List.pairwise_cons.mpr ⟨fun f hf => ?_, hspaced⟩
      obtain ⟨c, hc, -, -, hstart, -, -⟩ := hjoins.ends f hf
      rw [hstart]
      rcases List.mem_cons.mp hc with rfl | hc
      · exact (hafter next List.mem_cons_self).trans hlt
      · exact hafter c hc
    next hge =>
      refine coalesce_between hs hpos hblock hapart hle fun f hf => ?_
      rcases List.mem_cons.mp hf with rfl | hf
      · exact Nat.le_of_not_lt hge
      · have hgap := List.rel_of_pairwise_cons htail hf
        unfold stop at hgap
        omega

/-- A freed block is joined with its neighbours. -/
theorem insertFreeBlock_spec (hs : Spaced l) (hpos : ∀ b ∈ l, 0 < b.size)
    (hblock : minFreeBlockSize ≤ block.size)
    (hapart : ∀ b ∈ l, Apart block b) :
    Joins (block :: l) (insertFreeBlock block l) ∧
      Spaced (insertFreeBlock block l) := by
  have hsize : 0 < block.size := Nat.lt_of_lt_of_le (by decide) hblock
  unfold insertFreeBlock
  rw [if_neg (Nat.not_lt.mpr hblock)]
  split
  next => exact ⟨.refl _, List.pairwise_singleton _ _⟩
  next first rest =>
    split
    next hlt =>
      refine ⟨coalesceWithNext_joins _, coalesceWithNext_spaced hs ?_⟩
      intro f hf
      apply stop_le_of_start_le (hpos f hf) (hapart f hf)
      rcases List.mem_cons.mp hf with rfl | hf
      · exact hlt.le
      · have hgap := List.rel_of_pairwise_cons hs hf
        unfold stop at hgap
        omega
    next hge =>
      exact insertAfter_spec hs hpos hsize hapart (Nat.le_of_not_lt hge)

end Insert

end LinuxRs.User
