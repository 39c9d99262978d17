/-
Directory entries as a list with holes, and the two questions asked of
them: what a name stands for (`find`) and how often an inode is named
(`names`).

In a directory without two live entries of one name, each question
decides the other: `names` counts the names that `find` sends to an
inode. Adding and removing an entry then change both in the expected
way, whichever slot is used.
-/
import LinuxRs.Fs.Directory

namespace LinuxRs.Fs.TreeInode

def entryFor (name : Name) (e : DirectoryEntry) : Option InodeNumber :=
  if e.inodeNumber = 0#16 then none
  else if e.name = name then some e.inodeNumber else none

def hasName (name : Name) (e : DirectoryEntry) : Bool :=
  e.inodeNumber ≠ 0#16 ∧ e.name = name

/-- No two entries of a directory in use have one name. -/
def WellNamed (inode : TreeInode) : Prop :=
  ∀ name, inode.entries.countP (hasName name) ≤ 1

variable {inode inode' : TreeInode} {name m : Name} {c x : InodeNumber}
  {room : Bool}

theorem find_eq : inode.find name = inode.entries.findSome? (entryFor name) :=
  rfl

theorem entryFor_eq_some {e : DirectoryEntry} : entryFor name e = some c ↔
      hasName name e = true ∧ e.inodeNumber = c := by
  unfold entryFor hasName
  split
  next h => simp [h]
  next h =>
    split
    next hn => simp [h, hn]
    next hn => simp [h, hn]

theorem exists_entry (h : inode.find name = some c) :
    ∃ e ∈ inode.entries, hasName name e = true ∧ e.inodeNumber = c := by
  rw [find_eq] at h
  obtain ⟨e, he, hc⟩ := List.exists_of_findSome?_eq_some h
  exact ⟨e, he, Iff.mp entryFor_eq_some hc⟩

theorem ne_zero_of_find (h : inode.find name = some c) : c ≠ 0#16 := by
  obtain ⟨e, -, hname, rfl⟩ := exists_entry h
  simp only [hasName, decide_eq_true_eq] at hname
  exact hname.1

theorem countP_of_find_none (h : inode.find name = none) :
    inode.entries.countP (hasName name) = 0 := by
  rw [List.countP_eq_zero]
  intro e he hname
  have hnone := List.findSome?_eq_none_iff.mp (find_eq ▸ h) e he
  have hsome := Iff.mpr entryFor_eq_some ⟨hname, rfl⟩
  rw [hnone] at hsome
  cases hsome

/-- A live entry is the one that its name finds. -/
theorem WellNamed.find_of_mem (h : inode.WellNamed) {e : DirectoryEntry}
    (he : e ∈ inode.entries) (hlive : e.inodeNumber ≠ 0#16) :
    inode.find e.name = some e.inodeNumber := by
  cases hf : inode.find e.name with
  | none =>
    have hzero := List.countP_eq_zero.mp (countP_of_find_none hf) e he
    simp [hasName, hlive] at hzero
  | some c =>
    obtain ⟨e', he', hname, rfl⟩ := exists_entry hf
    -- both are in the list of live entries of that name, which is short
    have hself : hasName e.name e = true := by simp [hasName, hlive]
    have hin := List.mem_filter.mpr ⟨he, hself⟩
    have hin' := List.mem_filter.mpr ⟨he', hname⟩
    have hone := h e.name
    rw [List.countP_eq_length_filter] at hone
    match hl : inode.entries.filter (hasName e.name) with
    | [] =>
      rw [hl] at hin
      cases hin
    | [z] =>
      rw [hl] at hin hin'
      rw [List.mem_singleton.mp hin, List.mem_singleton.mp hin']
    | _ :: _ :: _ =>
      rw [hl] at hone
      simp only [List.length_cons] at hone
      omega

theorem WellNamed.names_eq_zero (h : inode.WellNamed) (hx : x ≠ 0#16)
    (hno : ∀ m, inode.find m ≠ some x) : inode.names x = 0 := by
  unfold names
  rw [List.countP_eq_zero]
  intro e he hex
  have hex : e.inodeNumber = x := by simpa using hex
  have hf := h.find_of_mem he (by rw [hex]; exact hx)
  exact hno _ (hex ▸ hf)

theorem WellNamed.names_eq_one (h : inode.WellNamed)
    (hf : inode.find name = some x) (hone : ∀ m, inode.find m = some x → m = name) :
    inode.names x = 1 := by
  have hx := ne_zero_of_find hf
  have hle : inode.names x ≤ 1 := by
    refine Nat.le_trans ?_ (h name)
    apply List.countP_mono_left
    intro e he hex
    have hex : e.inodeNumber = x := by simpa using hex
    have hlive : e.inodeNumber ≠ 0#16 := by rw [hex]; exact hx
    have hname := hone e.name (hex ▸ h.find_of_mem he hlive)
    simp [hasName, hlive, hname]
  have hpos : 0 < inode.names x := by
    obtain ⟨e, he, -, hex⟩ := exists_entry hf
    exact List.countP_pos_iff.mpr ⟨e, he, by simpa using hex⟩
  omega

theorem names_pos (hf : inode.find name = some x) : 0 < inode.names x := by
  obtain ⟨e, he, -, hex⟩ := exists_entry hf
  exact List.countP_pos_iff.mpr ⟨e, he, by simpa using hex⟩

-- ======== adding an entry

/-- A new entry fills a hole or goes to the end. -/
theorem addEntry_cases (h : inode.addEntry name c room = some inode') :
    ∃ a hole b, inode.entries = a ++ hole ++ b ∧
      (∀ e ∈ hole, e.inodeNumber = 0#16) ∧ hole.length ≤ 1 ∧
      inode' = { inode with entries := a ++ [⟨c, name⟩] ++ b } := by
  unfold addEntry at h
  split at h
  next slot hslot =>
    cases h
    obtain ⟨hlt, hzero, -⟩ := List.findIdx?_eq_some_iff_getElem.mp hslot
    refine ⟨inode.entries.take slot, [inode.entries[slot]],
      inode.entries.drop (slot + 1), ?_, ?_, by simp, ?_⟩
    · rw [List.append_assoc, List.singleton_append, List.getElem_cons_drop,
        List.take_append_drop]
    · intro e he
      rw [List.mem_singleton.mp he]
      simpa using hzero
    · rw [List.set_eq_take_append_cons_drop, if_pos hlt, List.append_assoc,
        List.singleton_append]
  next =>
    split at h
    next =>
      cases h
      exact ⟨inode.entries, [], [], by simp, by simp, by simp, by simp⟩
    next => cases h

theorem findSome_hole {hole : List DirectoryEntry}
    (h : ∀ e ∈ hole, e.inodeNumber = 0#16) (m : Name) :
    hole.findSome? (entryFor m) = none := by
  rw [List.findSome?_eq_none_iff]
  intro e he
  simp [entryFor, h e he]

theorem find_addEntry (h : inode.addEntry name c room = some inode')
    (hc : c ≠ 0#16) (hnew : inode.find name = none) (m : Name) :
    inode'.find m = if m = name then some c else inode.find m := by
  obtain ⟨a, hole, b, hentries, hhole, -, rfl⟩ := addEntry_cases h
  rw [find_eq] at hnew ⊢
  rw [find_eq, hentries]
  rw [hentries] at hnew
  simp only [List.findSome?_append, findSome_hole hhole, Option.or_none,
    List.findSome?_cons, List.findSome?_nil] at hnew ⊢
  by_cases hm : m = name
  · subst hm
    rw [if_pos rfl]
    simp only [Option.or_eq_none_iff] at hnew
    simp [hnew.1, entryFor, hc]
  · rw [if_neg hm]
    have hnone : entryFor m ⟨c, name⟩ = none := by
      simp [entryFor, hc, Ne.symm hm]
    simp [hnone]

theorem names_addEntry (h : inode.addEntry name c room = some inode')
    (hx : x ≠ 0#16) :
    inode'.names x = inode.names x + if c = x then 1 else 0 := by
  obtain ⟨a, hole, b, hentries, hhole, -, rfl⟩ := addEntry_cases h
  unfold names
  rw [hentries]
  have hzero : hole.countP (·.inodeNumber = x) = 0 := by
    rw [List.countP_eq_zero]
    intro e he
    simpa [hhole e he] using hx.symm
  simp only [List.countP_append, hzero, List.countP_cons, List.countP_nil,
    decide_eq_true_eq]
  omega

theorem WellNamed.addEntry (hw : inode.WellNamed)
    (h : inode.addEntry name c room = some inode')
    (hnew : inode.find name = none) : inode'.WellNamed := by
  have hzero := countP_of_find_none hnew
  intro n
  have hle := hw n
  obtain ⟨a, hole, b, hentries, hhole, -, rfl⟩ := addEntry_cases h
  rw [hentries] at hle hzero
  simp only [List.countP_append, List.countP_cons, List.countP_nil] at hle hzero ⊢
  by_cases hn : n = name
  · subst hn
    split <;> omega
  · have hno : hasName n ⟨c, name⟩ = false := by
      simp [hasName, Ne.symm hn]
    simp only [hno, Bool.false_eq_true, if_false]
    omega

-- ======== removing an entry

theorem removeEntry_cases (h : inode.removeEntry name = some inode') :
    ∃ a e b, inode.entries = a ++ [e] ++ b ∧ hasName name e = true ∧
      (∀ z ∈ a, hasName name z = false) ∧
      inode' = { inode with entries := a ++ [⟨0#16, []⟩] ++ b } := by
  unfold removeEntry at h
  split at h
  next slot hslot =>
    cases h
    obtain ⟨hlt, hname, hfirst⟩ := List.findIdx?_eq_some_iff_getElem.mp hslot
    refine ⟨inode.entries.take slot, inode.entries[slot],
      inode.entries.drop (slot + 1), ?_, ?_, ?_, ?_⟩
    · rw [List.append_assoc, List.singleton_append, List.getElem_cons_drop,
        List.take_append_drop]
    · exact hname
    · intro z hz
      obtain ⟨i, hi, rfl⟩ := List.mem_take_iff_getElem.mp hz
      have hno := hfirst i (by omega)
      simpa [hasName] using hno
    · rw [List.set_eq_take_append_cons_drop, if_pos hlt, List.append_assoc,
        List.singleton_append]
  next => cases h

theorem removeEntry_isSome (hf : inode.find name = some c) :
    ∃ inode', inode.removeEntry name = some inode' := by
  unfold removeEntry
  split
  next slot _ => exact ⟨_, rfl⟩
  next hnone =>
    obtain ⟨e, he, hname, -⟩ := exists_entry hf
    have hno := List.findIdx?_eq_none_iff.mp hnone e he
    simp only [hasName] at hname
    rw [hname] at hno
    cases hno

/-- With its entry gone a name is found no more, and every other as before. -/
theorem WellNamed.find_removeEntry (hw : inode.WellNamed)
    (h : inode.removeEntry name = some inode') (m : Name) :
    inode'.find m = if m = name then none else inode.find m := by
  have hone := hw name
  obtain ⟨a, e, b, hentries, hname, hfirst, rfl⟩ := removeEntry_cases h
  rw [hentries] at hone
  rw [find_eq, find_eq, hentries]
  have hgap : entryFor m ⟨0#16, []⟩ = none := by simp [entryFor]
  simp only [List.findSome?_append, List.findSome?_cons, List.findSome?_nil,
    hgap, Option.or_none]
  by_cases hm : m = name
  · subst hm
    rw [if_pos rfl]
    simp only [List.countP_append, List.countP_cons, hname, if_true,
      List.countP_nil] at hone
    have hnone : ∀ l : List DirectoryEntry, l.countP (hasName m) = 0 →
        l.findSome? (entryFor m) = none := by
      intro l hl
      rw [List.findSome?_eq_none_iff]
      intro z hz
      cases hs : entryFor m z with
      | none => rfl
      | some c =>
        exact absurd (Iff.mp entryFor_eq_some hs).1
          (List.countP_eq_zero.mp hl z hz)
    rw [hnone a (by omega), hnone b (by omega)]
    rfl
  · rw [if_neg hm]
    have hother : entryFor m e = none := by
      cases hs : entryFor m e with
      | none => rfl
      | some c =>
        have hme := (Iff.mp entryFor_eq_some hs).1
        simp only [hasName, decide_eq_true_eq] at hme hname
        exact absurd (hme.2.symm.trans hname.2) hm
    simp [hother]

theorem WellNamed.names_removeEntry (hw : inode.WellNamed)
    (h : inode.removeEntry name = some inode')
    (hf : inode.find name = some c) (hx : x ≠ 0#16) :
    inode'.names x + (if c = x then 1 else 0) = inode.names x := by
  obtain ⟨a, e, b, hentries, hname, -, rfl⟩ := removeEntry_cases h
  have hc : e.inodeNumber = c := by
    simp only [hasName, decide_eq_true_eq] at hname
    have hmem : e ∈ inode.entries := by rw [hentries]; simp
    have hfe := hw.find_of_mem hmem hname.1
    rw [hname.2, hf] at hfe
    exact (Option.some.inj hfe).symm
  unfold names
  rw [hentries]
  simp only [List.countP_append, List.countP_cons, List.countP_nil, hc,
    decide_eq_true_eq, if_neg (Ne.symm hx)]
  omega

theorem WellNamed.removeEntry (hw : inode.WellNamed)
    (h : inode.removeEntry name = some inode') : inode'.WellNamed := by
  intro n
  have hle := hw n
  obtain ⟨a, e, b, hentries, -, -, rfl⟩ := removeEntry_cases h
  rw [hentries] at hle
  have hgap : hasName n ⟨0#16, []⟩ = false := by simp [hasName]
  simp only [List.countP_append, List.countP_cons, List.countP_nil, hgap,
    Bool.false_eq_true, if_false] at hle ⊢
  omega

-- ======== emptiness

theorem find_of_empty (h : inode.isEmptyDirectory = true)
    (hf : inode.find name = some c) : name = dot ∨ name = dotdot := by
  obtain ⟨e, he, hname, -⟩ := exists_entry hf
  have hall := List.all_eq_true.mp h e he
  simp only [hasName, decide_eq_true_eq] at hall hname
  rcases hall with hz | hd | hd
  · exact absurd hz hname.1
  · exact .inl (hname.2.symm.trans hd)
  · exact .inr (hname.2.symm.trans hd)

end LinuxRs.Fs.TreeInode
