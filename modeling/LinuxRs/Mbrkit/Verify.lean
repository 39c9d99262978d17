/-
What a disk image that passes `verify` is known to be
(mbrkit/src/commands/verify.rs).

# The flaws that are looked for

`Flaw` lists them over the record: a wrong signature, a boot flag that is
neither 0x00 nor 0x80, an entry that ends past the image, and two entries in
the order of their starts the first of which does not end before the second
starts. An error is reported exactly when the image has one of them
(`error_iff`).

# What is left over

Disjointness and the end of the image follow from the absence of flaws. An
entry that starts at sector 0, or that has no sectors, is none of them: the
packing side refuses both in `from_parts` and `validate_partitions`, the
verifying side neither.
-/
import LinuxRs.Mbrkit.Disk
import Mathlib.Data.List.Pairwise

namespace LinuxRs.Mbrkit

open LinuxRs.Lib Extent

-- ======== the flaws

def PartitionEntry.extent (e : PartitionEntry) : Extent :=
  ⟨e.startingLba.toNat, e.sectors.toNat⟩

def MbrHeader.Used (mbr : MbrHeader) (i : Fin 4) : Prop :=
  (mbr.partitions i).isEmpty = false

def usedByStart (mbr : MbrHeader) : List PartitionReport :=
  ((buildPartitionReports mbr).filter PartitionReport.used).insertionSort
    ReportLe

/-- A partition ends before the next one starts; one without sectors counts
as ending at sector 0. -/
def EndsBefore (p q : PartitionReport) : Prop := p.endLba.getD 0 < q.startLba

/-- What `verify` refuses, in an image of a size. -/
inductive Flaw (mbr : MbrHeader) (size : Nat) : Prop
  | signature (h : mbr.signature ≠ mbrSignature)
  | bootFlag (i : Fin 4) (hused : mbr.Used i)
      (h : (mbr.partitions i).bootIndicator ≠ 0x00#8 ∧
        (mbr.partitions i).bootIndicator ≠ 0x80#8)
  | beyond (i : Fin 4) (hused : mbr.Used i)
      (h : size < (mbr.partitions i).extent.stop * sectorSize)
  | overlap (h : ¬ (usedByStart mbr).Pairwise EndsBefore)

/-- What a good table is: every entry in use has sectors, all of them
inside the image and none of them the first one, and no two entries share
a sector. -/
structure Sound (mbr : MbrHeader) (size : Nat) : Prop where
  nonempty : ∀ i, mbr.Used i → 0 < (mbr.partitions i).extent.size
  apart : ∀ i j, i ≠ j → mbr.Used i → mbr.Used j →
    Apart (mbr.partitions i).extent (mbr.partitions j).extent
  inside : ∀ i, mbr.Used i → (mbr.partitions i).extent.stop * sectorSize ≤ size
  record : ∀ i, mbr.Used i → Apart (mbr.partitions i).extent ⟨0, 1⟩

/-- An entry in use neither starts at sector 0 nor is empty. -/
def Reserved (mbr : MbrHeader) : Prop :=
  ∀ i, mbr.Used i → (mbr.partitions i).startingLba ≠ 0#32 ∧
    (mbr.partitions i).sectors ≠ 0#32

-- ======== the diagnostics

def NoError (l : List Diagnostic) : Prop := ∀ d ∈ l, d.level ≠ .error

@[simp] theorem noError_nil : NoError [] := nofun

@[simp] theorem noError_append {l l' : List Diagnostic} :
    NoError (l ++ l') ↔ NoError l ∧ NoError l' := by
  simp only [NoError, List.mem_append]
  exact ⟨fun h => ⟨fun d hd => h d (.inl hd), fun d hd => h d (.inr hd)⟩,
    fun h d hd => hd.elim (h.1 d) (h.2 d)⟩

@[simp] theorem noError_flatMap {α : Type} {l : List α}
    {f : α → List Diagnostic} :
    NoError (l.flatMap f) ↔ ∀ a ∈ l, NoError (f a) := by
  simp only [NoError, List.mem_flatMap]
  constructor
  · exact fun h a ha d hd => h d ⟨a, ha, hd⟩
  · intro h d hd
    obtain ⟨a, ha, hd⟩ := hd
    exact h a ha d hd

theorem noError_error {c : Prop} [Decidable c] {code message : String} :
    NoError (if c then [⟨.error, code, message⟩] else []) ↔ ¬ c := by
  split
  next hc =>
    exact ⟨fun h => absurd rfl (h _ List.mem_cons_self), fun h => absurd hc h⟩
  next hc => exact ⟨fun _ => hc, fun _ => noError_nil⟩

theorem noError_warning {c : Prop} [Decidable c] {code message : String} :
    NoError (if c then [⟨.warning, code, message⟩] else []) := by
  intro d hd
  split at hd
  next =>
    obtain rfl := List.mem_singleton.mp hd
    exact DiagnosticLevel.noConfusion
  next => cases hd

theorem noError_checkPartition {inspect : InspectReport} {flag : Byte}
    {p : PartitionReport} : NoError (checkPartition inspect flag p) ↔
      ¬ (flag ≠ 0x00#8 ∧ flag ≠ 0x80#8) ∧
      ¬ inspect.diskSize < p.startOffset + p.byteLen := by
  unfold checkPartition
  rw [noError_append, noError_append, noError_error, noError_error]
  exact ⟨fun h => h.1, fun h => ⟨h, noError_warning⟩⟩

/-- Comparing neighbours in the order of their starts is comparing all
pairs. -/
theorem noError_checkWindows {l : List PartitionReport}
    (hsorted : l.Pairwise ReportLe) :
    NoError (checkWindows l) ↔ l.Pairwise EndsBefore := by
  induction l with
  | nil => simp [checkWindows]
  | cons left l ih =>
    cases l with
    | nil => simp [checkWindows]
    | cons right rest =>
      obtain ⟨hleft, hrest⟩ := List.pairwise_cons.mp hsorted
      have hle : left.startLba ≤ right.startLba :=
        hleft right List.mem_cons_self
      unfold checkWindows
      rw [noError_append, noError_error, ih hrest]
      constructor
      · intro h
        have hfirst : left.endLba.getD 0 < right.startLba := by omega
        refine List.pairwise_cons.mpr ⟨fun q hq => ?_, h.2⟩
        rcases List.mem_cons.mp hq with rfl | hq
        · exact hfirst
        · have hnext : right.startLba ≤ q.startLba :=
            (List.pairwise_cons.mp hrest).1 q hq
          unfold EndsBefore
          omega
      · intro h
        obtain ⟨hgap, htail⟩ := List.pairwise_cons.mp h
        have hfirst : left.endLba.getD 0 < right.startLba :=
          hgap right List.mem_cons_self
        exact ⟨by omega, htail⟩

-- ======== the used slots

theorem mem_usedByStart {mbr : MbrHeader} {p : PartitionReport} :
    p ∈ usedByStart mbr ↔
      ∃ i, mbr.Used i ∧ p = (mbr.partitions i).report i.val := by
  unfold usedByStart buildPartitionReports
  rw [(List.perm_insertionSort ReportLe _).mem_iff, List.mem_filter,
    List.mem_map]
  constructor
  · rintro ⟨⟨i, -, rfl⟩, hused⟩
    exact ⟨i, by simpa [MbrHeader.Used, PartitionEntry.report] using hused, rfl⟩
  · rintro ⟨i, hused, rfl⟩
    exact ⟨⟨i, List.mem_finRange i, rfl⟩,
      by simpa [MbrHeader.Used, PartitionEntry.report] using hused⟩

theorem usedByStart_sorted (mbr : MbrHeader) :
    (usedByStart mbr).Pairwise ReportLe :=
  have : Std.Total ReportLe := ⟨fun p q => Nat.le_total p.startLba q.startLba⟩
  have : IsTrans PartitionReport ReportLe := ⟨fun _ _ _ => Nat.le_trans⟩
  List.pairwise_insertionSort ReportLe _

theorem bootIndicatorOf_report (mbr : MbrHeader) (i : Fin 4) :
    bootIndicatorOf mbr ((mbr.partitions i).report i.val).slot =
      (mbr.partitions i).bootIndicator := by
  unfold bootIndicatorOf
  rw [dif_pos (show ((mbr.partitions i).report i.val).slot - 1 < 4 from i.isLt)]
  rfl

theorem report_stop (e : PartitionEntry) (i : Nat) :
    (e.report i).startOffset + (e.report i).byteLen =
      e.extent.stop * sectorSize :=
  (Nat.add_mul _ _ _).symm

theorem apart_of_endsBefore {e f : PartitionEntry} {i j : Nat}
    (hle : ReportLe (e.report i) (f.report j))
    (h : EndsBefore (e.report i) (f.report j)) : Apart e.extent f.extent := by
  unfold EndsBefore at h
  unfold Apart stop PartitionEntry.extent
  dsimp only
  by_cases hzero : e.sectors = 0#32
  · have hstart : e.startingLba.toNat ≤ f.startingLba.toNat := hle
    rw [hzero]
    exact .inl hstart
  · have hpos : e.sectors.toNat ≠ 0 := fun hno =>
      hzero (BitVec.eq_of_toNat_eq (by rw [hno]; rfl))
    have hend : (e.report i).endLba
        = some (e.startingLba.toNat + e.sectors.toNat - 1) := if_neg hzero
    rw [hend] at h
    have hlt : e.startingLba.toNat + e.sectors.toNat - 1
      < f.startingLba.toNat := h
    exact .inl (by omega)

-- ======== verify

theorem inspectDisk_ok {data : List Byte} {inspect : InspectReport}
    (h : inspectDisk data = .ok inspect) :
    MbrHeader.fromSector data = .ok inspect.mbr ∧
      inspect.diskSize = data.length ∧
      inspect.mbrSignatureValid = inspect.mbr.hasValidSignature ∧
      inspect.partitions = buildPartitionReports inspect.mbr := by
  unfold inspectDisk at h
  split at h
  next => cases h
  next mbr hmbr =>
    cases h
    exact ⟨hmbr, rfl, rfl, rfl⟩

/-- An error is reported exactly for a flaw. -/
theorem error_iff {data : List Byte} {inspect : InspectReport}
    (h : inspectDisk data = .ok inspect) (strict : Bool) :
    ¬ NoError (verifyDiagnostics inspect strict) ↔
      Flaw inspect.mbr data.length := by
  obtain ⟨-, hsize, hsig, hparts⟩ := inspectDisk_ok h
  have hall : NoError (verifyDiagnostics inspect strict) ↔
      inspect.mbr.signature = mbrSignature ∧ (∀ i, inspect.mbr.Used i →
        ¬ ((inspect.mbr.partitions i).bootIndicator ≠ 0x00#8 ∧
          (inspect.mbr.partitions i).bootIndicator ≠ 0x80#8) ∧
        ¬ data.length < (inspect.mbr.partitions i).extent.stop * sectorSize) ∧
      (usedByStart inspect.mbr).Pairwise EndsBefore := by
    have hwindows := noError_checkWindows (usedByStart_sorted inspect.mbr)
    unfold usedByStart at hwindows
    unfold verifyDiagnostics
    rw [hparts, noError_append, noError_append, noError_append,
      noError_append, noError_error, noError_flatMap, hwindows]
    have hslots : (∀ p ∈ usedByStart inspect.mbr, NoError (checkPartition
        inspect (bootIndicatorOf inspect.mbr p.slot) p)) ↔
        ∀ i, inspect.mbr.Used i →
          ¬ ((inspect.mbr.partitions i).bootIndicator ≠ 0x00#8 ∧
            (inspect.mbr.partitions i).bootIndicator ≠ 0x80#8) ∧
          ¬ data.length
            < (inspect.mbr.partitions i).extent.stop * sectorSize := by
      constructor
      · intro hp i hused
        have hi := Iff.mp noError_checkPartition
          (hp _ (Iff.mpr mem_usedByStart ⟨i, hused, rfl⟩))
        rw [bootIndicatorOf_report, report_stop, hsize] at hi
        exact hi
      · intro hi p hp
        obtain ⟨i, hused, rfl⟩ := Iff.mp mem_usedByStart hp
        refine Iff.mpr noError_checkPartition ?_
        rw [bootIndicatorOf_report, report_stop, hsize]
        exact hi i hused
    have hvalid : ¬ inspect.mbrSignatureValid = false ↔
        inspect.mbr.signature = mbrSignature := by
      rw [hsig]
      simp [MbrHeader.hasValidSignature]
    unfold usedByStart at hslots
    rw [hvalid, hslots]
    exact ⟨fun hok => ⟨hok.1.1.1.1, hok.1.1.1.2, hok.1.1.2⟩,
      fun hok => ⟨⟨⟨⟨hok.1, hok.2.1⟩, hok.2.2⟩, noError_warning⟩,
        noError_warning⟩⟩
  rw [hall]
  constructor
  · intro hno
    by_contra hflaw
    refine hno ⟨?_, fun i hused => ⟨?_, ?_⟩, ?_⟩
    · exact Classical.not_not.mp fun hbad => hflaw (.signature hbad)
    · exact fun hbad => hflaw (.bootFlag i hused hbad)
    · exact fun hbad => hflaw (.beyond i hused hbad)
    · exact Classical.not_not.mp fun hbad => hflaw (.overlap hbad)
  · intro hflaw hok
    cases hflaw with
    | signature hbad => exact hbad hok.1
    | bootFlag i hused hbad => exact (hok.2.1 i hused).1 hbad
    | beyond i hused hbad => exact (hok.2.1 i hused).2 hbad
    | overlap hbad => exact hbad hok.2.2

def PartitionReport.extent (p : PartitionReport) : Extent :=
  ⟨p.startLba, p.sectors⟩

theorem apart_of_pairwise {mbr : MbrHeader}
    (h : (usedByStart mbr).Pairwise EndsBefore) {i j : Fin 4} (hne : i ≠ j)
    (hi : mbr.Used i) (hj : mbr.Used j) :
    Apart (mbr.partitions i).extent (mbr.partitions j).extent := by
  have hfar : (usedByStart mbr).Pairwise fun p q =>
      Apart p.extent q.extent := by
    refine ((usedByStart_sorted mbr).and h).imp_of_mem ?_
    intro p q hp hq hpq
    obtain ⟨i, -, rfl⟩ := Iff.mp mem_usedByStart hp
    obtain ⟨j, -, rfl⟩ := Iff.mp mem_usedByStart hq
    exact apart_of_endsBefore hpq.1 hpq.2
  have : Std.Symm fun p q : PartitionReport => Apart p.extent q.extent :=
    ⟨fun _ _ hpq => hpq.symm⟩
  refine hfar.forall (Iff.mpr mem_usedByStart ⟨i, hi, rfl⟩)
    (Iff.mpr mem_usedByStart ⟨j, hj, rfl⟩) fun heq => hne (Fin.ext ?_)
  -- the reports of two slots differ in their slot
  have hslot : i.val + 1 = j.val + 1 := congrArg PartitionReport.slot heq
  omega

/-- Where no check fails, what is left is what is not checked. -/
theorem sound_iff {mbr : MbrHeader} {size : Nat} (h : ¬ Flaw mbr size) :
    Sound mbr size ↔ Reserved mbr := by
  constructor
  · intro hsound i hused
    have hcount : 0 < (mbr.partitions i).sectors.toNat :=
      hsound.nonempty i hused
    have hrecord := hsound.record i hused
    unfold Apart stop PartitionEntry.extent at hrecord
    dsimp only at hrecord
    refine ⟨fun hzero => ?_, fun hzero => ?_⟩
    · have hstart : (mbr.partitions i).startingLba.toNat = 0 := by
        rw [hzero]; rfl
      omega
    · rw [hzero] at hcount
      exact absurd hcount (Nat.lt_irrefl 0)
  · intro hreserved
    have hpos : ∀ (v : BitVec 32), v ≠ 0#32 → 0 < v.toNat := fun v hv =>
      Nat.pos_of_ne_zero fun hno =>
        hv (BitVec.eq_of_toNat_eq (by rw [hno]; rfl))
    refine ⟨fun i hused => hpos _ (hreserved i hused).2,
      fun i j hne hi hj => ?_, fun i hused => ?_,
      fun i hused => .inr (hpos _ (hreserved i hused).1)⟩
    · exact apart_of_pairwise
        (Classical.not_not.mp fun hbad => h (.overlap hbad)) hne hi hj
    · exact Nat.le_of_not_lt fun hbad => h (.beyond i hused hbad)

/-- For every image: that its table is good whenever `verify` reports no
error is the case exactly when no used entry starts at sector 0 or has no
sectors, or when the image has one of the flaws that are looked for. -/
theorem verify_sound_iff (data : List Byte) (strict : Bool) :
    (∀ inspect, inspectDisk data = .ok inspect →
        (∀ d ∈ verifyDiagnostics inspect strict, d.level ≠ .error) →
        Sound inspect.mbr data.length) ↔
      ∀ mbr, MbrHeader.fromSector data = .ok mbr →
        Reserved mbr ∨ Flaw mbr data.length := by
  constructor
  · intro h mbr hmbr
    by_cases hflaw : Flaw mbr data.length
    · exact .inr hflaw
    · have hinspect : inspectDisk data = .ok ⟨data.length,
          mbr.hasValidSignature, mbr.diskSignature, mbr,
          buildPartitionReports mbr⟩ := by
        unfold inspectDisk
        rw [hmbr]
      have hquiet := Classical.not_not.mp
        (mt (error_iff hinspect strict).mp hflaw)
      exact .inl ((sound_iff hflaw).mp (h _ hinspect hquiet))
  · intro h inspect hinspect hquiet
    have hflaw : ¬ Flaw inspect.mbr data.length := fun hflaw =>
      (error_iff hinspect strict).mpr hflaw hquiet
    rcases h inspect.mbr (inspectDisk_ok hinspect).1 with hreserved | hbad
    · exact (sound_iff hflaw).mpr hreserved
    · exact absurd hbad hflaw

def selfHeader : MbrHeader :=
  { MbrHeader.new blankCode 0#32 with
    partitions := fun i => if i.val = 0 then
      ⟨0x80#8, (0#8, 1#8, 0#8), 0x81#8, (0#8, 1#8, 0#8), 0#32, 1#32⟩
      else .default }

/-- An image of one sector, with one partition that starts at sector 0:
`verify` has nothing to report, and the partition covers the record. -/
theorem verify_record_covered :
    ∃ inspect, inspectDisk selfHeader.toSector = .ok inspect ∧
      verifyDiagnostics inspect false = [] ∧
      ¬ Sound inspect.mbr selfHeader.toSector.length := by
  have hlen := selfHeader.length_toSector
  have hself : slice selfHeader.toSector 0 512 = selfHeader.toSector := by
    unfold slice
    rw [List.drop_zero, List.take_of_length_le (Nat.le_of_eq hlen)]
  obtain ⟨mbr, hmbr, hparts, hsig⟩ :=
    selfHeader.fromSector_toSector (Nat.le_of_eq hlen.symm) hself
  have hinspect : inspectDisk selfHeader.toSector = .ok ⟨512,
      mbr.hasValidSignature, mbr.diskSignature, mbr,
      buildPartitionReports mbr⟩ := by
    unfold inspectDisk
    rw [hmbr, hlen]
  refine ⟨_, hinspect, ?_, fun hsound => ?_⟩
  · unfold verifyDiagnostics MbrHeader.hasValidSignature
      buildPartitionReports bootIndicatorOf
    rw [hparts, hsig]
    rfl
  · have hrecord := hsound.record ⟨0, by decide⟩ (by
      unfold MbrHeader.Used
      rw [hparts]
      rfl)
    rw [hparts] at hrecord
    unfold Apart stop PartitionEntry.extent at hrecord
    exact absurd hrecord (by decide)

end LinuxRs.Mbrkit
