/-
The path of an executable inside the kernel (kernel/src/segment/uaccess.rs,
`read_pathname`).

A kernel string has a character for every byte of the caller, and at most
256 of them. Written out again, a byte from 0x80 on has become two. A path
that comes out as it went in though it has such bytes ends in one
(`high_of_kept`), and such a path does not resolve, so the paths of programs
that are kept are those of at most 256 ASCII bytes (`kept_iff`).
-/
import LinuxRs.Exec.Execve

namespace LinuxRs.Exec

open LinuxRs.Lib

-- ======== conversion

variable {mem : UserMem} {addr : Nat} {name text : List Byte} {b : Byte}

theorem GivenString.tail (h : GivenString mem addr (b :: name)) :
    mem addr = b ∧ b ≠ 0#8 ∧ GivenString mem (addr + 1) name := by
  obtain ⟨hbytes, hnul⟩ := h
  obtain ⟨hfirst, hrest⟩ := pointsTo_cons_iff.mp hbytes
  refine ⟨Option.some.inj hfirst, fun hzero => ?_, hrest, fun hmem => ?_⟩
  · rw [hzero] at hnul
    exact hnul List.mem_cons_self
  · exact hnul (List.mem_cons_of_mem b hmem)

/-- The kernel reads a pathname as it was given, up to the limit. -/
theorem GivenString.readString (h : GivenString mem addr name) (n : Nat) :
    Fs.readString n ((List.range n).map fun i => mem (addr + i))
      = name.take n := by
  induction n generalizing addr name with
  | zero => rfl
  | succ n ih =>
    rw [List.range_succ_eq_map, List.map_cons, List.map_map]
    show Fs.readString (n + 1) (mem addr :: _) = _
    cases name with
    | nil =>
      have hnul : mem addr = 0#8 :=
        Option.some.inj (pointsTo_singleton_iff.mp h.1)
      unfold Fs.readString
      rw [if_pos hnul]
      rfl
    | cons b name =>
      obtain ⟨hb, hne, htail⟩ := h.tail
      unfold Fs.readString
      rw [if_neg (by rw [hb]; exact hne), hb, List.take_succ_cons]
      have hrest := ih htail
      have hmap : ((List.range n).map ((fun i => mem (addr + i)) ∘ Nat.succ))
          = (List.range n).map fun i => mem (addr + 1 + i) := by
        refine List.map_congr_left fun i _ => ?_
        show mem (addr + (i + 1)) = mem (addr + 1 + i)
        rw [Nat.add_right_comm, Nat.add_assoc]
      rw [hmap, hrest]

theorem GivenString.readPathname (h : GivenString mem addr name) :
    readPathname mem addr = Fs.encode (name.take Fs.maxPathLen) :=
  congrArg Fs.encode (h.readString Fs.maxPathLen)

theorem encode_append (a b : List Byte) :
    Fs.encode (a ++ b) = Fs.encode a ++ Fs.encode b := List.flatMap_append

theorem encodeChar_high : ∀ b : Byte, 0x80#8 ≤ b →
    (Fs.encodeChar b).length = 2 ∧ (Fs.encodeChar b).all (0x80#8 ≤ ·) := by
  decide

theorem encodeChar_noNul : ∀ b : Byte, b ≠ 0#8 → 0#8 ∉ Fs.encodeChar b := by
  decide

theorem encode_noNul (h : 0#8 ∉ text) : 0#8 ∉ Fs.encode text := by
  intro hmem
  obtain ⟨b, hb, hin⟩ := List.mem_flatMap.mp hmem
  refine encodeChar_noNul b (fun hzero => ?_) hin
  rw [hzero] at hb
  exact h hb

theorem GivenString.readPathname_noNul (h : GivenString mem addr name) :
    0#8 ∉ Exec.readPathname mem addr := by
  rw [h.readPathname]
  exact encode_noNul fun hmem => h.2 (List.mem_of_mem_take hmem)

theorem length_encode_high (h : text.all (0x80#8 ≤ ·) = true) :
    (Fs.encode text).length = 2 * text.length := by
  induction text with
  | nil => rfl
  | cons b text ih =>
    obtain ⟨hb, htext⟩ := (Bool.and_eq_true _ _).mp h
    have hone := (encodeChar_high b (of_decide_eq_true hb)).1
    show (Fs.encodeChar b ++ Fs.encode text).length = _
    rw [List.length_append, hone, ih htext, List.length_cons]
    omega

-- ======== kept paths

theorem encode_high (h : text.all (0x80#8 ≤ ·) = true) :
    (Fs.encode text).all (0x80#8 ≤ ·) = true := by
  rw [List.all_eq_true] at h ⊢
  intro b hb
  obtain ⟨a, ha, hin⟩ := List.mem_flatMap.mp hb
  have hchar := (encodeChar_high a (of_decide_eq_true (h a ha))).2
  exact List.all_eq_true.mp hchar b hin

/-- A text that comes out as it went in and starts from 0x80 on has only such
bytes: the first `k` determine the first `2 * k`. -/
theorem high_of_kept {n : Nat} (hb : 0x80#8 ≤ b)
    (h : Fs.encode ((b :: text).take n) = b :: text) {k : Nat}
    (hk : k ≤ n) : ((b :: text).take k).all (0x80#8 ≤ ·) = true := by
  induction k with
  | zero => rfl
  | succ k ih =>
    have hfront := ih (Nat.le_of_succ_le hk)
    cases k with
    | zero => simpa using hb
    | succ k =>
      by_cases hlen : (b :: text).length ≤ k + 1
      · rw [List.take_of_length_le hlen] at hfront
        rw [List.take_of_length_le (Nat.le_succ_of_le hlen)]
        exact hfront
      · have htake : ((b :: text).take (k + 1)).length = k + 1 :=
          List.length_take_of_le (Nat.le_of_not_le hlen)
        have hsplit : (b :: text).take n = (b :: text).take (k + 1)
            ++ ((b :: text).take n).drop (k + 1) := by
          have hshort : (b :: text).take (k + 1)
              = ((b :: text).take n).take (k + 1) := by
            rw [List.take_take, Nat.min_eq_left (Nat.le_of_succ_le hk)]
          rw [hshort, List.take_append_drop]
        rw [hsplit, encode_append] at h
        have htwo := length_encode_high hfront
        have hstart : (b :: text).take (k + 1 + 1)
            = (Fs.encode ((b :: text).take (k + 1))).take (k + 1 + 1) := by
          conv_lhs => rw [← h]
          exact List.take_append_of_le_length (by omega)
        rw [hstart, List.all_eq_true]
        intro c hc
        exact List.all_eq_true.mp (encode_high hfront) c (List.mem_of_mem_take hc)

/-- The paths that the kernel does not change. -/
def PathKept (name : List Byte) : Prop :=
  name.length ≤ Fs.maxPathLen ∧ Fs.isAscii name = true

/-- A path which ends in one byte after the conversion comes out as it went
in exactly if it is ASCII within the limit. -/
theorem kept_iff {name : List Byte}
    (hlast : (Fs.encode (name.take Fs.maxPathLen)).getLast?.all
      (· < 0x80#8) = true) :
    Fs.encode (name.take Fs.maxPathLen) = name ↔ PathKept name := by
  constructor
  · intro h
    rw [h] at hlast
    have hfront : Fs.isAscii (name.takeWhile (· < 0x80#8)) = true := by
      apply List.all_eq_true.mpr
      intro b hb
      have hlow := List.mem_takeWhile_imp hb
      exact hlow
    have hjoin := List.takeWhile_append_dropWhile (p := (· < 0x80#8))
      (l := name)
    generalize hfrontName : name.takeWhile (· < 0x80#8) = front at *
    have htaken : Fs.isAscii (front.take Fs.maxPathLen) = true := by
      apply List.all_eq_true.mpr
      intro b hb
      exact List.all_eq_true.mp hfront b (List.mem_of_mem_take hb)
    cases hrest : name.dropWhile (· < 0x80#8) with
    | nil =>
      rw [hrest, List.append_nil] at hjoin
      subst hjoin
      refine ⟨?_, hfront⟩
      rw [Fs.encode_of_isAscii htaken] at h
      have hlen := congrArg List.length h
      rw [List.length_take] at hlen
      omega
    | cons b text =>
      have hb : 0x80#8 ≤ b := by
        have hnot := List.head?_dropWhile_not (· < 0x80#8) name
        rw [hrest] at hnot
        have hlt := of_decide_eq_false hnot
        exact BitVec.not_lt.mp hlt
      rw [hrest] at hjoin
      subst hjoin
      exfalso
      by_cases hk : front.length < Fs.maxPathLen
      · -- what is behind the ASCII bytes ends in a byte from 0x80 on
        rw [List.take_append, encode_append, List.take_of_length_le
          (Nat.le_of_lt hk), Fs.encode_of_isAscii hfront] at h
        have hself := List.append_cancel_left h
        have hhigh := encode_high (high_of_kept hb hself (Nat.le_refl _))
        rw [hself, List.all_eq_true] at hhigh
        rw [List.getLast?_append_of_ne_nil _ (List.cons_ne_nil b text),
          List.getLast?_eq_some_getLast (List.cons_ne_nil b text)] at hlast
        have hlow := of_decide_eq_true hlast
        have hend := of_decide_eq_true (hhigh _ (List.getLast_mem
          (List.cons_ne_nil b text)))
        exact BitVec.not_lt.mpr hend hlow
      · -- the limit cuts off the byte that is not ASCII
        have hcut : (front ++ b :: text).take Fs.maxPathLen
            = front.take Fs.maxPathLen :=
          List.take_append_of_le_length (Nat.le_of_not_lt hk)
        rw [hcut, Fs.encode_of_isAscii htaken] at h
        have hlen := congrArg List.length h
        rw [List.length_take, List.length_append, List.length_cons] at hlen
        omega
  · intro h
    obtain ⟨hlen, hascii⟩ := h
    rw [List.take_of_length_le hlen, Fs.encode_of_isAscii hascii]

end LinuxRs.Exec
