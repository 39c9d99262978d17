/-
What `install_into` and `create_user_tables` leave in the new address space
(kernel/src/syscall/handler/process/exec.rs).

Every access is specified on what is known of the memory: an access may map
a page, and otherwise it reads or writes its own bytes. The tables, the
three words below them and the strings are apart from each other
(`Laid`), and `Laid.stackHolds` reads them as a stack.
-/
import LinuxRs.Exec.Stack

namespace LinuxRs.Exec

open LinuxRs.Lib

namespace Space

variable {demand : Demand} {s s' : Space} {n addr : Nat} {b : Byte}

abbrev known (s : Space) : Nat → Option Byte := s.pages.byteAt

-- ======== accesses

theorem touch_ok (h : s.touch demand n = .ok s') :
    KeepsOutside s.known s'.known 0 0 ∧ ∃ page, s'.pages n = some page := by
  unfold touch at h
  cases hpage : s.pages n with
  | some page =>
    rw [hpage] at h
    cases h
    exact ⟨.refl _ 0 0, page, hpage⟩
  | none =>
    rw [hpage] at h
    cases hdemand : demand n with
    | none =>
      rw [hdemand] at h
      cases h
    | some page =>
      rw [hdemand] at h
      cases h
      exact ⟨PageMap.fill_keeps hpage 0, page, Function.update_self ..⟩

theorem writeU8_ok (h : s.writeU8 demand b addr = .ok s') :
    Writes s.known s'.known addr [b] := by
  obtain ⟨s₁, htouch, hstore⟩ := bind_ok h
  cases hstore
  obtain ⟨hkeeps, page, hpage⟩ := touch_ok htouch
  have hwrites := PageMap.store_writes (b := b) hpage
  exact ⟨hwrites.holds, (hkeeps.of_empty addr 1).trans hwrites.keeps⟩

theorem readU8_ok {b : Byte} (h : s.readU8 demand addr = .ok (s', b)) :
    KeepsOutside s.known s'.known 0 0 ∧ s'.known addr = some b := by
  obtain ⟨s₁, htouch, hread⟩ := bind_ok h
  cases hbyte : s₁.pages.byteAt addr with
  | none =>
    rw [hbyte] at hread
    cases hread
  | some b' =>
    rw [hbyte] at hread
    obtain ⟨rfl, rfl⟩ := Prod.mk.inj (Except.ok.inj hread)
    exact ⟨(touch_ok htouch).1, hbyte⟩

theorem writeBytes_ok (bs : List Byte)
    (h : s.writeBytes demand bs addr = .ok s') :
    Writes s.known s'.known addr bs := by
  induction bs generalizing s addr with
  | nil =>
    cases h
    exact .nil _ _
  | cons b bs ih =>
    obtain ⟨s₁, hone, hrest⟩ := bind_ok h
    exact (writeU8_ok hone).append (ih hrest)

theorem writeU32_ok {v : BitVec 32} (h : s.writeU32 demand v addr = .ok s') :
    Writes s.known s'.known addr (leBytes32 v) := writeBytes_ok _ h

-- ======== strings

/-- The scan for a NUL ends behind the string and changes no byte that was
known. -/
theorem scanString_ok {str : List Byte} (hstr : CString s.known addr str)
    {scan : Nat} (fuel : Nat)
    (h : s.scanString demand fuel addr = .ok (s', scan)) :
    scan = addr + str.length ∧ KeepsOutside s.known s'.known 0 0 := by
  induction fuel generalizing s addr str with
  | zero => cases h
  | succ fuel ih =>
    obtain ⟨⟨s₁, b⟩, hread, hrest⟩ := bind_ok h
    obtain ⟨hkeeps, hbyte⟩ := readU8_ok hread
    cases str with
    | nil =>
      have hfirst := hkeeps _ _ (by omega) (pointsTo_singleton_iff.mp hstr.1)
      obtain rfl := Option.some.inj (hbyte.symm.trans hfirst)
      rw [if_neg fun hne => hne rfl] at hrest
      obtain ⟨rfl, rfl⟩ := Prod.mk.inj (Except.ok.inj hrest)
      exact ⟨rfl, hkeeps⟩
    | cons c str =>
      obtain ⟨hbytes, hnul⟩ := hstr
      rw [List.cons_append] at hbytes
      obtain ⟨hfirst, htail⟩ := pointsTo_cons_iff.mp hbytes
      have hsame := Option.some.inj
        (hbyte.symm.trans (hkeeps _ _ (by omega) hfirst))
      have hne : b ≠ 0#8 := by
        intro hzero
        apply hnul
        rw [← hzero, hsame]
        exact List.mem_cons_self
      rw [if_pos hne] at hrest
      have htail : CString s₁.known (addr + 1) str :=
        ⟨hkeeps.pointsTo htail (.inr (Nat.zero_le _)),
          fun hmem => hnul (List.mem_cons_of_mem c hmem)⟩
      obtain ⟨hscan, hkeeps'⟩ := ih htail hrest
      refine ⟨?_, hkeeps.trans hkeeps'⟩
      rw [hscan, List.length_cons]
      omega

end Space

def addresses : Nat → List (List Byte) → List (BitVec 32)
  | _, [] => []
  | scan, s :: ss =>
    BitVec.ofNat 32 scan :: addresses (scan + (s.length + 1)) ss

def tableBytes (scan : Nat) (ss : List (List Byte)) : List Byte :=
  (addresses scan ss).flatMap leBytes32 ++ leBytes32 0#32

theorem length_addresses (scan : Nat) (ss : List (List Byte)) :
    ((addresses scan ss).flatMap leBytes32).length = 4 * ss.length := by
  induction ss generalizing scan with
  | nil => rfl
  | cons s ss ih =>
    unfold addresses
    rw [List.flatMap_cons, List.length_append, length_leBytes32, ih,
      List.length_cons]
    omega

theorem length_tableBytes (scan : Nat) (ss : List (List Byte)) :
    (tableBytes scan ss).length = 4 * (ss.length + 1) := by
  unfold tableBytes
  rw [List.length_append, length_addresses, length_leBytes32]
  omega

theorem length_packed_cons (s : List Byte) (ss : List (List Byte)) :
    (packed (s :: ss)).length = s.length + 1 + (packed ss).length := by
  rw [packed_cons, List.length_append, List.length_append,
    List.length_singleton]

theorem length_le_packed (ss : List (List Byte)) :
    ss.length ≤ (packed ss).length := by
  induction ss with
  | nil => exact Nat.le_refl 0
  | cons s ss ih =>
    rw [length_packed_cons, List.length_cons]
    omega

variable {demand : Demand} {s s' : Space} {scan scan' base : Nat}

/-- One pointer after the other, the table points to the strings. -/
theorem fillFrom_ok (ss : List (List Byte)) (i : Nat)
    (hnul : ∀ str ∈ ss, 0#8 ∉ str) (hss : PointsTo s.known scan (packed ss))
    (hbelow : base + 4 * i + 4 * ss.length ≤ scan)
    (h : s.fillFrom demand base ss.length i scan = .ok (s', scan')) :
    scan' = scan + (packed ss).length ∧ Writes s.known s'.known (base + 4 * i)
        ((addresses scan ss).flatMap leBytes32) := by
  induction ss generalizing s i scan with
  | nil =>
    obtain ⟨rfl, rfl⟩ := Prod.mk.inj (Except.ok.inj h)
    exact ⟨rfl, .nil _ _⟩
  | cons str ss ih =>
    rw [List.length_cons] at hbelow
    obtain ⟨s₁, hword, hrest⟩ := bind_ok h
    obtain ⟨⟨s₂, stop⟩, hscan, hrest⟩ := bind_ok hrest
    have hwrites := Space.writeU32_ok hword
    -- the strings are above the word that was written
    have hstrings : PointsTo s₁.known scan (packed (str :: ss)) := by
      apply hwrites.keeps.pointsTo hss
      right
      rw [length_leBytes32]
      omega
    rw [packed_cons] at hstrings
    obtain ⟨hstr, htail⟩ := pointsTo_append_iff.mp hstrings
    have hnulstr := hnul str List.mem_cons_self
    obtain ⟨rfl, hkeeps⟩ := Space.scanString_ok ⟨hstr, hnulstr⟩ _ hscan
    rw [List.length_append, List.length_singleton] at htail
    have hnext : scan + str.length + 1 = scan + (str.length + 1) := rfl
    rw [hnext] at hrest
    obtain ⟨hend, htable⟩ := ih (i + 1)
      (fun t ht => hnul t (List.mem_cons_of_mem str ht))
      (hkeeps.pointsTo htail (.inr (Nat.zero_le _))) (by omega) hrest
    refine ⟨?_, ?_⟩
    · rw [hend, length_packed_cons]
      omega
    · have haddr : base + 4 * (i + 1)
          = base + 4 * i + (leBytes32 (BitVec.ofNat 32 scan)).length := by
        rw [length_leBytes32]
        omega
      rw [haddr] at htable
      have hfirst : Writes s.known s₂.known (base + 4 * i)
          (leBytes32 (BitVec.ofNat 32 scan)) :=
        ⟨hkeeps.pointsTo hwrites.holds (.inr (Nat.zero_le _)),
          hwrites.keeps.trans (hkeeps.of_empty _ _)⟩
      exact hfirst.append htable

theorem fillPtrTable_ok (ss : List (List Byte))
    (hnul : ∀ str ∈ ss, 0#8 ∉ str) (hss : PointsTo s.known scan (packed ss))
    (hbelow : base + 4 * (ss.length + 1) ≤ scan)
    (h : s.fillPtrTable demand scan base ss.length = .ok (s', scan')) :
    scan' = scan + (packed ss).length
      ∧ Writes s.known s'.known base (tableBytes scan ss) := by
  obtain ⟨⟨s₁, stop⟩, hfill, hrest⟩ := bind_ok h
  obtain ⟨s₂, hnull, hdone⟩ := bind_ok hrest
  obtain ⟨rfl, rfl⟩ := Prod.mk.inj (Except.ok.inj hdone)
  obtain ⟨hend, htable⟩ := fillFrom_ok ss 0 hnul hss (by omega) hfill
  refine ⟨hend, ?_⟩
  have hlast := Space.writeU32_ok hnull
  rw [Nat.mul_zero, Nat.add_zero] at htable
  rw [← length_addresses scan ss] at hlast
  exact htable.append hlast

/-- Strings one behind the other and the sums of their lengths make a pointer
table. -/
theorem pointerTable_of_packed {m : Nat → Option Byte} (ss : List (List Byte))
    (hnul : ∀ str ∈ ss, 0#8 ∉ str) (hss : PointsTo m scan (packed ss))
    (htable : PointsTo m base (tableBytes scan ss))
    (hpos : 0 < scan) (hfit : scan + (packed ss).length ≤ addressSpace) :
    PointerTable m base ss := by
  induction ss generalizing base scan with
  | nil => exact htable
  | cons str ss ih =>
    rw [length_packed_cons] at hfit
    have hscan : (BitVec.ofNat 32 scan).toNat = scan := by
      rw [BitVec.toNat_ofNat]
      apply Nat.mod_eq_of_lt
      unfold addressSpace at hfit
      omega
    rw [packed_cons] at hss
    obtain ⟨hstr, htail⟩ := pointsTo_append_iff.mp hss
    rw [List.length_append, List.length_singleton] at htail
    unfold tableBytes addresses at htable
    rw [List.flatMap_cons, List.append_assoc] at htable
    obtain ⟨hword, hrest⟩ := pointsTo_append_iff.mp htable
    refine ⟨_, ?_, hword, ?_, ?_⟩
    · intro hzero
      have hnat := congrArg BitVec.toNat hzero
      rw [hscan] at hnat
      exact absurd hnat (Nat.ne_of_gt hpos)
    · rw [hscan]
      exact ⟨hstr, hnul str List.mem_cons_self⟩
    · exact ih (fun t ht => hnul t (List.mem_cons_of_mem str ht)) htail
        hrest (by omega) (by omega)

-- ======== the stack

/-- The parts of a stack for strings that are packed from `argsStart` on:
each where `create_user_tables` puts it. -/
structure Laid (m : Nat → Option Byte) (argsStart : Nat)
    (argv envp : List (List Byte)) : Prop where
  strings : PointsTo m argsStart (packed argv ++ packed envp)
  envpTable : PointsTo m (envpBase argsStart envp.length)
    (tableBytes (argsStart + (packed argv).length) envp)
  argvTable : PointsTo m (argvBase argsStart argv.length envp.length)
    (tableBytes argsStart argv)
  envpWord : PointsTo m (tablesSp argsStart argv.length envp.length + 8)
    (leBytes32 (BitVec.ofNat 32 (envpBase argsStart envp.length)))
  argvWord : PointsTo m (tablesSp argsStart argv.length envp.length + 4)
    (leBytes32 (BitVec.ofNat 32 (argvBase argsStart argv.length envp.length)))
  argcWord : PointsTo m (tablesSp argsStart argv.length envp.length)
    (leBytes32 (BitVec.ofNat 32 argv.length))

/-- The tables fit below the strings. -/
def Room (argsStart argc envc : Nat) : Prop :=
  4 * (argc + envc) + 24 ≤ argsStart ∧ argsStart < addressSpace

variable {argsStart : Nat} {argv envp : List (List Byte)}

theorem tables_apart (h : Room argsStart argv.length envp.length) :
    argvBase argsStart argv.length envp.length
        = tablesSp argsStart argv.length envp.length + 12
      ∧ envpBase argsStart envp.length
        = argvBase argsStart argv.length envp.length + 4 * (argv.length + 1)
      ∧ envpBase argsStart envp.length + 4 * (envp.length + 1) ≤ argsStart
      ∧ argsStart ≤ tablesSp argsStart argv.length envp.length
        + 4 * (argv.length + envp.length) + 24 := by
  obtain ⟨hroom, -⟩ := h
  unfold tablesSp argvBase envpBase
  omega

/-- Below the strings stand both tables, and the strings are as they were. -/
theorem createUserTables_ok {sp : Nat}
    (hroom : Room argsStart argv.length envp.length)
    (hnul : ∀ str ∈ argv ++ envp, 0#8 ∉ str)
    (hstrings : PointsTo s.known argsStart (packed argv ++ packed envp))
    (h : createUserTables demand argsStart argv.length envp.length s
      = .ok (s', sp)) :
    sp = tablesSp argsStart argv.length envp.length
      ∧ Laid s'.known argsStart argv envp := by
  obtain ⟨hargvAt, henvpAt, hbelow, -⟩ := tables_apart hroom
  unfold createUserTables at h
  obtain ⟨s₁, hw₁, h⟩ := bind_ok h
  obtain ⟨s₂, hw₂, h⟩ := bind_ok h
  obtain ⟨s₃, hw₃, h⟩ := bind_ok h
  obtain ⟨⟨s₄, scan₄⟩, hf₄, h⟩ := bind_ok h
  obtain ⟨⟨s₅, scan₅⟩, hf₅, h⟩ := bind_ok h
  obtain ⟨rfl, rfl⟩ := Prod.mk.inj (Except.ok.inj h)
  have hw₁ := Space.writeU32_ok hw₁
  have hw₂ := Space.writeU32_ok hw₂
  have hw₃ := Space.writeU32_ok hw₃
  -- the words are below the tables and the strings
  have hlow : KeepsOutside s.known s₃.known
      (tablesSp argsStart argv.length envp.length) 12 := by
    have h₁ := hw₁.keeps.mono (k := 12) (Nat.le_add_right
      (tablesSp argsStart argv.length envp.length) 8) (Nat.le_refl _)
    have h₂ := hw₂.keeps.mono (k := 12) (Nat.le_add_right
      (tablesSp argsStart argv.length envp.length) 4) (by
        rw [length_leBytes32]
        omega)
    have h₃ := hw₃.keeps.mono (k := 12) (Nat.le_refl _) (by
        rw [length_leBytes32]
        omega)
    exact (h₁.trans h₂).trans h₃
  have hs₃ := hlow.pointsTo hstrings (.inr (by omega))
  obtain ⟨hargvs, -⟩ := pointsTo_append_iff.mp hs₃
  obtain ⟨rfl, ht₄⟩ := fillPtrTable_ok argv
    (fun str hstr => hnul str (List.mem_append_left envp hstr)) hargvs
    (by omega) hf₄
  have hlen₄ := length_tableBytes argsStart argv
  have hs₄ := ht₄.keeps.pointsTo hs₃ (.inr (by omega))
  obtain ⟨-, henvps⟩ := pointsTo_append_iff.mp hs₄
  obtain ⟨-, ht₅⟩ := fillPtrTable_ok envp
    (fun str hstr => hnul str (List.mem_append_right argv hstr)) henvps
    (by omega) hf₅
  have hlen₅ := length_tableBytes (argsStart + (packed argv).length) envp
  -- a word that is written stays, since all that follows is apart from it
  have hkept : ∀ {a : Nat} {v : BitVec 32}, PointsTo s₃.known a (leBytes32 v) →
      a + 4 ≤ argvBase argsStart argv.length envp.length →
      PointsTo s₅.known a (leBytes32 v) := by
    intro a v hword ha
    apply ht₅.keeps.pointsTo (ht₄.keeps.pointsTo hword (.inl ha))
    left
    rw [length_leBytes32]
    omega
  have hword : ∀ {a b : Nat} (v : BitVec 32), a + 4 ≤ b →
      a + (leBytes32 v).length ≤ b := fun _ hle => hle
  refine ⟨rfl, ht₅.keeps.pointsTo hs₄ (.inr (by omega)), ht₅.holds,
    ht₅.keeps.pointsTo ht₄.holds (.inl (by omega)), ?_, ?_, ?_⟩
  · apply hkept _ (by omega)
    apply hw₃.keeps.pointsTo (hw₂.keeps.pointsTo hw₁.holds _) _
    · exact .inr (hword _ (by omega))
    · exact .inr (hword _ (by omega))
  · apply hkept _ (by omega)
    exact hw₃.keeps.pointsTo hw₂.holds (.inr (hword _ (by omega)))
  · exact hkept hw₃.holds (by omega)

theorem Laid.keeps {m m' : Nat → Option Byte} {a n : Nat}
    (h : Laid m argsStart argv envp)
    (hroom : Room argsStart argv.length envp.length)
    (hkeeps : KeepsOutside m m' a n)
    (hbelow : a + n ≤ tablesSp argsStart argv.length envp.length) :
    Laid m' argsStart argv envp := by
  obtain ⟨hargvAt, henvpAt, hfar, -⟩ := tables_apart hroom
  exact ⟨hkeeps.pointsTo h.strings (.inr (by omega)),
    hkeeps.pointsTo h.envpTable (.inr (by omega)),
    hkeeps.pointsTo h.argvTable (.inr (by omega)),
    hkeeps.pointsTo h.envpWord (.inr (by omega)),
    hkeeps.pointsTo h.argvWord (.inr (by omega)),
    hkeeps.pointsTo h.argcWord (.inr (by omega))⟩

/-- The stack that is laid holds the strings and both tables. -/
theorem Laid.stackHolds {m : Nat → Option Byte}
    (h : Laid m argsStart argv envp)
    (hroom : Room argsStart argv.length envp.length)
    (hnul : ∀ str ∈ argv ++ envp, 0#8 ∉ str)
    (hfit : argsStart + (packed argv ++ packed envp).length ≤ addressSpace) :
    StackHolds m (tablesSp argsStart argv.length envp.length) argv envp := by
  obtain ⟨hargvAt, henvpAt, hbelow, -⟩ := tables_apart hroom
  obtain ⟨hpos, hlt⟩ := hroom
  obtain ⟨hargvs, henvps⟩ := pointsTo_append_iff.mp h.strings
  rw [List.length_append] at hfit
  have hword : ∀ {a : Nat}, a ≤ argsStart → (BitVec.ofNat 32 a).toNat = a := by
    intro a ha
    rw [BitVec.toNat_ofNat]
    exact Nat.mod_eq_of_lt (Nat.lt_of_le_of_lt ha hlt)
  refine ⟨_, _, h.argcWord, h.argvWord, h.envpWord, ?_, ?_⟩
  · rw [hword (by omega)]
    exact pointerTable_of_packed argv
      (fun str hstr => hnul str (List.mem_append_left envp hstr)) hargvs
      h.argvTable (by omega) (by omega)
  · rw [hword (by omega)]
    exact pointerTable_of_packed envp
      (fun str hstr => hnul str (List.mem_append_right argv hstr)) henvps
      h.envpTable (by omega) (by omega)

end LinuxRs.Exec
