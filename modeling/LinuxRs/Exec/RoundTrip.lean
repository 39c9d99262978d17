/-
What a successful `execve` leaves on the new stack.

# The way of a string

It is copied into the argument pages (`Packed`), the pages are mapped at the
top of the new space (`install_known`), the tables are built below
(`createUserTables_ok`), and the last write of the call falls below them
(`zeroTail_keeps`). `execve_stack` puts these together: the stack holds
what was packed, in order.

# What is packed

For a binary that is what the caller gave. For a script the path went
through `read_pathname` on its way, so the stack holds the caller's path only
if that conversion leaves it alone (`PathKept`).
-/
import LinuxRs.Exec.KernelPath

namespace LinuxRs.Exec

open LinuxRs.Lib

-- ======== installation

namespace Space

variable {frames : Frames} {a : ArgumentPages} {s s' : Space}

/-- The pages of a space while the argument pages from the `i`-th on are
mapped. -/
def Installed (a : ArgumentPages) (i : Nat) (s : Space) : Prop :=
  ∀ n, s.pages n = if argPage + i ≤ n ∧ n < argPage + maxArgPages then
    a.pages (n - argPage) else none

theorem mapPage_ok {n : Nat} {page : Page}
    (h : s.mapPage frames n page = some s') :
    s'.pages = s.pages.fill n page := by
  obtain ⟨s₁, htable, hmap⟩ := Option.bind_eq_some_iff.mp h
  have hpages : s₁.pages = s.pages := by
    unfold ensurePageTable at htable
    split at htable
    next =>
      cases htable
      rfl
    next =>
      split at htable
      next =>
        cases htable
        rfl
      next => cases htable
  cases hn : s₁.pages n with
  | some page' =>
    rw [hn] at hmap
    cases hmap
  | none =>
    rw [hn] at hmap
    cases hmap
    rw [hpages]

/-- Page by page from the last one down, the argument pages come to their
places. -/
theorem installFrom_ok (i : Nat) (hi : i ≤ maxArgPages) (hs : s.Installed a i)
    (h : installFrom frames a i s = .ok s') : s'.Installed a 0 := by
  induction i generalizing s with
  | zero =>
    cases h
    exact hs
  | succ i ih =>
    unfold installFrom at h
    cases hpage : a.pages i with
    | none =>
      rw [hpage] at h
      apply ih (Nat.le_of_lt hi) _ h
      intro n
      rw [hs n]
      by_cases hn : n = argPage + i
      · rw [if_neg (by omega), if_pos (by omega), hn,
          Nat.add_sub_cancel_left, hpage]
      · by_cases hrange : argPage + (i + 1) ≤ n ∧ n < argPage + maxArgPages
        · rw [if_pos hrange, if_pos (by omega)]
        · rw [if_neg hrange, if_neg (by omega)]
    | some page =>
      rw [hpage] at h
      dsimp only at h
      cases hmap : s.mapPage frames (argPage + i) page with
      | none =>
        rw [hmap] at h
        cases h
      | some s₁ =>
        rw [hmap] at h
        apply ih (Nat.le_of_lt hi) _ h
        intro n
        rw [mapPage_ok hmap]
        unfold PageMap.fill
        by_cases hn : n = argPage + i
        · rw [hn, Function.update_self, if_pos (by omega),
            Nat.add_sub_cancel_left, hpage]
        · rw [Function.update_of_ne hn, hs n]
          by_cases hrange : argPage + (i + 1) ≤ n ∧ n < argPage + maxArgPages
          · rw [if_pos hrange, if_pos (by omega)]
          · rw [if_neg hrange, if_neg (by omega)]

/-- What was packed in the argument pages stands in the new memory. -/
theorem install_known {allocs : Nat} {bs : List Byte}
    (h : install frames a (.new allocs) = .ok s') {off : Nat}
    (hbs : PointsTo a.pages.byteAt off bs)
    (hoff : off + bs.length ≤ maxArgPages * pageSize) :
    PointsTo s'.known (off + argBase) bs := by
  have hnew : (Space.new allocs).Installed a maxArgPages := by
    intro n
    rw [if_neg (by omega)]
    rfl
  have hall := installFrom_ok maxArgPages (Nat.le_refl _) hnew h
  intro i v hi
  have hlt := (List.getElem?_eq_some_iff.mp hi).1
  have hbyte := hbs i v hi
  unfold known PageMap.byteAt at *
  unfold maxArgPages pageSize at hoff
  have hdiv : (off + argBase + i) / pageSize = argPage + (off + i) / pageSize
      := by
    unfold argBase argPage taskLinearSize maxArgPages pageSize
    omega
  have hmod : (off + argBase + i) % pageSize = (off + i) % pageSize := by
    unfold argBase taskLinearSize maxArgPages pageSize
    omega
  rw [hdiv, hmod, hall, if_pos, Nat.add_sub_cancel_left]
  · exact hbyte
  · unfold maxArgPages pageSize
    omega

end Space

theorem zeroTail_keeps {demand : Demand} {s s' : Space} (fuel i : Nat)
    (h : zeroTail demand fuel i s = .ok s') :
    KeepsOutside s.known s'.known i fuel := by
  induction fuel generalizing s i with
  | zero =>
    cases h
    exact .refl _ _ _
  | succ fuel ih =>
    unfold zeroTail at h
    split at h
    next =>
      cases h
      exact .refl _ _ _
    next =>
      obtain ⟨s₁, hone, hrest⟩ := bind_ok h
      have hfirst := (Space.writeU8_ok hone).keeps
      rw [List.length_singleton] at hfirst
      exact (hfirst.mono (Nat.le_refl i) (by omega)).trans
        ((ih (i + 1) hrest).mono (Nat.le_succ i) (by omega))

-- ======== no NUL in between

theorem dropSpace_suffix (two : Byte → Byte → Bool)
    (three : Byte → Byte → Byte → Bool) (line : List Byte) :
    dropSpace two three line <:+ line := by
  fun_induction dropSpace two three line with
  | case1 => exact List.suffix_rfl
  | case2 => exact List.nil_suffix
  | case3 => exact List.suffix_rfl
  | case4 a b _ ih => exact ih.trans (List.suffix_cons a _)
  | case5 => exact List.nil_suffix
  | case6 => exact List.suffix_rfl
  | case7 a b c rest _ ih => exact ih.trans (List.suffix_cons a _)
  | case8 a b c rest _ _ ih =>
    exact ih.trans ((List.suffix_cons b _).trans (List.suffix_cons a _))
  | case9 a b c rest _ _ _ ih =>
    exact ih.trans ((List.suffix_cons c _).trans
      ((List.suffix_cons b _).trans (List.suffix_cons a _)))
  | case10 => exact List.suffix_rfl

theorem mem_of_mem_trimStart {line : List Byte} {b : Byte}
    (h : b ∈ trimStart line) : b ∈ line :=
  (dropSpace_suffix _ _ line).subset h

theorem mem_of_mem_trimEnd {line : List Byte} {b : Byte}
    (h : b ∈ trimEnd line) : b ∈ line := by
  have hdrop := List.mem_reverse.mp h
  exact List.mem_reverse.mp ((dropSpace_suffix _ _ line.reverse).subset hdrop)

theorem mem_of_mem_baseName {path : List Byte} {b : Byte}
    (h : b ∈ baseName path) : b ∈ path := by
  exact List.mem_reverse.mp (List.takeWhile_subset _ (List.mem_reverse.mp h))

theorem parseShebang_noNul {block : List Byte} {line : Shebang}
    (h : parseShebang block = some line) :
    0#8 ∉ line.name ∧ ∀ arg, line.arg = some arg → 0#8 ∉ arg := by
  have hfirst : 0#8 ∉ firstLine block := by
    intro hmem
    have htaken := List.mem_takeWhile_imp (List.mem_of_mem_drop hmem)
    exact absurd rfl (of_decide_eq_true htaken).2
  have htrim : 0#8 ∉ trimEnd (trimStart (firstLine block)) := fun hmem =>
    hfirst (mem_of_mem_trimStart (mem_of_mem_trimEnd hmem))
  obtain ⟨-, h⟩ := Option.ite_none_right_eq_some.mp h
  obtain ⟨-, h⟩ := Option.ite_none_left_eq_some.mp h
  cases h
  refine ⟨fun hmem => ?_, fun arg harg hmem => ?_⟩
  · exact htrim (List.takeWhile_subset _ (mem_of_mem_baseName hmem))
  · dsimp only at harg
    obtain ⟨-, harg⟩ := Option.ite_none_left_eq_some.mp harg
    cases harg
    exact htrim (List.dropWhile_subset _ (mem_of_mem_trimStart hmem))

theorem GivenTable.noNul {mem : UserMem} {argv : Nat} {ss : List (List Byte)}
    (h : GivenTable mem argv ss) : ∀ s ∈ ss, 0#8 ∉ s := by
  rcases h with ⟨-, rfl⟩ | ⟨-, hptrs⟩
  · intro s hs
    cases hs
  · intro s hs
    obtain ⟨i, hi⟩ := List.mem_iff_getElem?.mp hs
    exact (hptrs.strings i s hi).2.2

-- ======== what is packed

/-- The interpreter line of a script; `none` for a binary. -/
def Program.line (p : Program) : Option Shebang :=
  p.firstBlock.bind fun bytes =>
    if isShebang (blockOf bytes) then parseShebang (blockOf bytes) else none

def Program.arguments (p : Program) (path : List Byte)
    (args : List (List Byte)) : List (List Byte) :=
  match p.line with
  | none => args
  | some line => line.name :: (line.arg.toList ++ path :: args.drop 1)

variable {m : Machine} {c : Call} {image : Image} {l : Loaded}
  {args envs : List (List Byte)}

theorem binaryPages_ok {frames : Frames} {a : ArgumentPages}
    (hargs : GivenTable c.mem c.argv args)
    (henvs : GivenTable c.mem c.envp envs)
    (h : binaryPages frames c args.length envs.length = .ok a) :
    a.Packed (packed args ++ packed envs) := by
  obtain ⟨a₁, henv, harg⟩ := bind_ok h
  have hall := (ArgumentPages.Packed.new.copyTable henvs henv).copyTable
    hargs harg
  rw [List.append_nil] at hall
  exact hall

/-- A script leaves the interpreter, its argument and the name in front of the
arguments. -/
theorem scriptPages_ok {frames : Frames} {a : ArgumentPages}
    {filename : List Byte} {line : Shebang}
    (hargs : GivenTable c.mem c.argv args)
    (henvs : GivenTable c.mem c.envp envs)
    (h : scriptPages frames c filename line args.length envs.length = .ok a) :
    a.Packed (packed (line.name
      :: (line.arg.toList ++ filename :: args.drop 1)) ++ packed envs) := by
  obtain ⟨a₁, henv, h⟩ := bind_ok h
  obtain ⟨a₂, harg, h⟩ := bind_ok h
  obtain ⟨a₃, hfile, h⟩ := bind_ok h
  obtain ⟨a₄, hopt, hname⟩ := bind_ok h
  have h₁ := ArgumentPages.Packed.new.copyTable henvs henv
  rw [List.append_nil] at h₁
  have h₂ : a₂.Packed (packed (args.drop 1) ++ packed envs) := by
    rcases hargs with ⟨-, rfl⟩ | ⟨-, hptrs⟩
    · cases harg
      exact h₁
    · cases args with
      | nil =>
        cases harg
        exact h₁
      | cons first args =>
        have hall := h₁.copyUserStrings hptrs.tail args.length
          (Nat.le_refl _) harg
        rw [List.take_length] at hall
        exact hall
  have h₃ := h₂.copyKernelString filename hfile
  have h₄ : a₄.Packed (packed (line.arg.toList ++ filename :: args.drop 1)
      ++ packed envs) := by
    cases harg : line.arg with
    | none =>
      rw [harg] at hopt
      cases hopt
      rw [← List.append_assoc] at h₃
      exact h₃
    | some arg =>
      rw [harg] at hopt
      have hall := h₃.copyKernelString arg hopt
      rw [← List.append_assoc (filename ++ [0#8]),
        ← List.append_assoc (arg ++ [0#8])] at hall
      exact hall
  have hall := h₄.copyKernelString line.name hname
  rw [← List.append_assoc] at hall
  exact hall

/-- The pages hold the strings of the program that is run in the end. -/
theorem load_ok (hargs : GivenTable c.mem c.argv args)
    (henvs : GivenTable c.mem c.envp envs)
    (h : load m c args.length envs.length = .ok l) :
    ∃ p, m.resolve (readPathname c.mem c.filename) = .found p
      ∧ l.pages.Packed (packed (p.arguments
        (readPathname c.mem c.filename) args) ++ packed envs)
      ∧ l.argc = (p.arguments (readPathname c.mem c.filename) args).length
      ∧ (∀ line, p.line = some line → 0#8 ∉ line.name
        ∧ ∀ arg, line.arg = some arg → 0#8 ∉ arg)
      ∧ l.header.aText.toNat + l.header.aData.toNat ≤ 50331648 := by
  have hheader : ∀ {block : List Byte} {size : BitVec 32} {hd : AoutHeader},
      readHeader block size = .ok hd →
      hd.aText.toNat + hd.aData.toNat ≤ 50331648 := by
    intro block size hd h
    unfold readHeader at h
    split at h
    next hvalid =>
      cases h
      obtain ⟨-, -, -, hsum, -⟩ := of_decide_eq_true hvalid
      omega
    next => cases h
  unfold load at h
  dsimp only at h
  cases hresolve : m.resolve (readPathname c.mem c.filename) with
  | panic =>
    rw [hresolve] at h
    cases h
  | absent =>
    rw [hresolve] at h
    cases h
  | found p =>
    rw [hresolve] at h
    obtain ⟨⟨ids, block⟩, hinspect, h⟩ := bind_ok h
    have hblock : ∃ bytes, p.firstBlock = some bytes
        ∧ block = blockOf bytes := by
      unfold inspect at hinspect
      split at hinspect
      next => cases hinspect
      next =>
        split at hinspect
        next => cases hinspect
        next bytes hbytes =>
          obtain ⟨-, rfl⟩ := Prod.mk.inj (Except.ok.inj hinspect)
          exact ⟨bytes, hbytes, rfl⟩
    obtain ⟨bytes, hbytes, rfl⟩ := hblock
    refine ⟨p, rfl, ?_⟩
    by_cases hscript : isShebang (blockOf bytes) = true
    · have hline : p.line = parseShebang (blockOf bytes) := by
        unfold Program.line
        rw [hbytes]
        exact if_pos hscript
      rw [if_pos hscript] at h
      unfold loadScript at h
      cases hparse : parseShebang (blockOf bytes) with
      | none =>
        rw [hparse] at h
        cases h
      | some line =>
        rw [hparse] at h hline
        obtain ⟨a, hpages, h⟩ := bind_ok h
        cases hinterp : m.resolve line.path with
        | panic =>
          rw [hinterp] at h
          cases h
        | absent =>
          rw [hinterp] at h
          cases h
        | found interpreter =>
          rw [hinterp] at h
          obtain ⟨r, -, h⟩ := bind_ok h
          obtain ⟨hd, hhd, h⟩ := bind_ok h
          cases h
          have harguments : p.arguments (readPathname c.mem c.filename) args
              = line.name :: (line.arg.toList
                ++ readPathname c.mem c.filename :: args.drop 1) := by
            unfold Program.arguments
            rw [hline]
          rw [harguments]
          refine ⟨scriptPages_ok hargs henvs hpages, ?_, ?_, hheader hhd⟩
          · show args.length - 1 + 1 + _ + 1 = _
            rw [List.length_cons, List.length_append,
              List.length_cons, List.length_drop]
            cases line.arg with
            | none =>
              show args.length - 1 + 1 + 0 + 1 = 0 + (args.length - 1 + 1) + 1
              omega
            | some arg =>
              show args.length - 1 + 1 + 1 + 1 = 1 + (args.length - 1 + 1) + 1
              omega
          · intro line' hline'
            obtain rfl := Option.some.inj (hline.symm.trans hline')
            exact parseShebang_noNul hparse
    · have hline : p.line = none := by
        unfold Program.line
        rw [hbytes]
        exact if_neg hscript
      have harguments : p.arguments (readPathname c.mem c.filename) args
          = args := by
        unfold Program.arguments
        rw [hline]
      rw [if_neg hscript] at h
      obtain ⟨hd, hhd, h⟩ := bind_ok h
      obtain ⟨a, hpages, h⟩ := bind_ok h
      cases h
      rw [harguments]
      refine ⟨binaryPages_ok hargs henvs hpages, rfl, ?_, hheader hhd⟩
      intro line hsome
      rw [hline] at hsome
      cases hsome

-- ======== the stack

theorem Program.arguments_noNul {p : Program} {path : List Byte}
    (hline : ∀ line, p.line = some line → 0#8 ∉ line.name
      ∧ ∀ arg, line.arg = some arg → 0#8 ∉ arg)
    (hpath : 0#8 ∉ path) (hargs : ∀ s ∈ args, 0#8 ∉ s) :
    ∀ s ∈ p.arguments path args, 0#8 ∉ s := by
  unfold Program.arguments
  cases hl : p.line with
  | none => exact hargs
  | some line =>
    obtain ⟨hname, harg⟩ := hline line hl
    intro s hs
    rcases List.mem_cons.mp hs with rfl | hs
    · exact hname
    rcases List.mem_append.mp hs with hs | hs
    · exact harg s (Option.mem_toList.mp hs)
    rcases List.mem_cons.mp hs with rfl | hs
    · exact hpath
    · exact hargs s (List.mem_of_mem_drop hs)

/-- The new stack holds the strings and the tables that point to them. -/
theorem execve_stack {name : List Byte}
    (hname : GivenString c.mem c.filename name)
    (hargs : GivenTable c.mem c.argv args)
    (henvs : GivenTable c.mem c.envp envs) (h : execve m c = .ok image) :
    ∃ p, m.resolve (readPathname c.mem c.filename) = .found p
      ∧ StackHolds image.space.known image.sp
        (p.arguments (readPathname c.mem c.filename) args) envs := by
  unfold execve at h
  cases hargc : countUserPtrs c.mem c.argv with
  | none =>
    rw [hargc] at h
    cases h
  | some argc =>
    cases henvc : countUserPtrs c.mem c.envp with
    | none =>
      rw [hargc, henvc] at h
      cases h
    | some envc =>
      rw [hargc, henvc] at h
      obtain rfl := hargs.length_eq hargc
      obtain rfl := henvs.length_eq henvc
      obtain ⟨l, hload, hcommit⟩ := bind_ok h
      obtain ⟨p, hp, hpacked, hcount, hline, hdata⟩ :=
        load_ok hargs henvs hload
      refine ⟨p, hp, ?_⟩
      split at hcommit
      next => cases hcommit
      next =>
        generalize harguments : p.arguments
          (readPathname c.mem c.filename) args = arguments at *
        have hnul : ∀ s ∈ arguments ++ envs, 0#8 ∉ s := by
          intro s hs
          rcases List.mem_append.mp hs with hs | hs
          · rw [← harguments] at hs
            exact Program.arguments_noNul hline hname.readPathname_noNul
              hargs.noNul s hs
          · exact henvs.noNul s hs
        obtain ⟨hcursor, hbytes⟩ := hpacked
        rw [List.length_append] at hcursor
        have hfewArgs := length_le_packed arguments
        have hfewEnvs := length_le_packed envs
        unfold argTop maxArgPages pageSize at hcursor
        have hroom : Room (l.pages.writeCursor + argBase)
            arguments.length envs.length := by
          unfold Room argBase taskLinearSize maxArgPages pageSize addressSpace
          omega
        obtain ⟨s₁, hinstall, hcommit⟩ := bind_ok hcommit
        obtain ⟨⟨s₂, sp⟩, htables, hcommit⟩ := bind_ok hcommit
        obtain ⟨s₃, hzero, hdone⟩ := bind_ok hcommit
        cases hdone
        have hknown := Space.install_known hinstall hbytes (by
          rw [List.length_append]
          unfold maxArgPages pageSize
          omega)
        rw [hcount] at htables
        obtain ⟨hsp, hlaid⟩ := createUserTables_ok hroom hnul hknown htables
        -- the program ends far below the tables
        have hfar := (tables_apart hroom).2.2.2
        have hbase : argBase = 66977792 := rfl
        have hkept := hlaid.keeps hroom (zeroTail_keeps _ _ hzero) (by
          unfold pageSize
          omega)
        rw [hsp]
        apply hkept.stackHolds hroom hnul
        rw [List.length_append]
        unfold argBase taskLinearSize maxArgPages pageSize addressSpace
        omega

-- ======== the result

/-- The new stack holds what the caller gave: for a script, the interpreter's
name, its argument, the caller's path and the arguments behind the first. -/
def ArgumentsKept (m : Machine) (c : Call) (image : Image)
    (name : List Byte) (args envs : List (List Byte)) : Prop :=
  ∃ p, m.resolve (readPathname c.mem c.filename) = .found p
    ∧ StackHolds image.space.known image.sp (p.arguments name args) envs

/-- A file that is no script, or a path that the kernel does not change. -/
def KeepsArguments (m : Machine) (c : Call) (name : List Byte) : Prop :=
  (∀ p, m.resolve (readPathname c.mem c.filename) = .found p → p.line = none)
    ∨ PathKept name

/-- After a successful call, the stack reads back as what the caller gave
exactly when the file is no script or its path is kept. -/
theorem execve_arguments_iff {name : List Byte}
    (hname : GivenString c.mem c.filename name)
    (hargs : GivenTable c.mem c.argv args)
    (henvs : GivenTable c.mem c.envp envs) (h : execve m c = .ok image) :
    ArgumentsKept m c image name args envs ↔ KeepsArguments m c name := by
  obtain ⟨p, hp, hstack⟩ := execve_stack hname hargs henvs h
  unfold ArgumentsKept KeepsArguments
  have hlast := m.cut _ p hp
  rw [hname.readPathname] at hlast
  rw [← kept_iff hlast, ← hname.readPathname]
  constructor
  · intro hkept
    obtain ⟨p', hp', hstack'⟩ := hkept
    obtain rfl := Fs.Outcome.found.inj (hp.symm.trans hp')
    have hsame := (hstack.unique hstack').1
    unfold Program.arguments at hsame
    cases hl : p.line with
    | none =>
      left
      intro p'' hp''
      obtain rfl := Fs.Outcome.found.inj (hp.symm.trans hp'')
      exact hl
    | some line =>
      right
      rw [hl] at hsame
      have htail := List.append_cancel_left (List.cons.inj hsame).2
      exact (List.cons.inj htail).1
  · intro h
    refine ⟨p, hp, ?_⟩
    rcases h with hbinary | hkept
    · have hl := hbinary p hp
      unfold Program.arguments at hstack ⊢
      rw [hl] at hstack ⊢
      exact hstack
    · rw [hkept] at hstack
      exact hstack

/-- A script for an interpreter at `/s`, a binary without contents. -/
def sampleMachine : Machine where
  resolve path :=
    if path = [0x2f#8, 0x73#8] then
      .found ⟨some (0#16, 0#16), some [0x0b#8, 0x01#8], 1024#32⟩
    else if path.getLast?.all (· < 0x80#8) then
      .found ⟨some (0#16, 0#16),
        some [0x23#8, 0x21#8, 0x2f#8, 0x73#8, 0x0a#8], 5#32⟩
    else .panic
  cut := by
    intro path p h
    split at h
    next heq =>
      rw [heq]
      decide
    next =>
      split at h
      next hend => exact hend
      next => cases h
  frames _ := true
  demand _ := some fun _ => 0#8

/-- A call for the path of a byte and an `x`, with one argument, `a`. -/
def sampleCall (b : Byte) : Call where
  mem addr :=
    [28#8, 0#8, 0#8, 0#8, 0#8, 0#8, 0#8, 0#8, 0#8, 0#8, 0#8, 0#8, 0x61#8,
      0#8, b, 0x78#8, 0#8].getD (addr - 16) 0#8
  filename := 30
  argv := 16
  envp := 24

theorem sampleCall_given (b : Byte) (hb : b ≠ 0#8) :
    GivenString (sampleCall b).mem (sampleCall b).filename [b, 0x78#8]
      ∧ GivenTable (sampleCall b).mem (sampleCall b).argv [[0x61#8]]
      ∧ GivenTable (sampleCall b).mem (sampleCall b).envp [] := by
  have hptr : readU32 (sampleCall b).mem 16 = 28#32 := by
    show ofLeBytes32 [28#8, 0#8, 0#8, 0#8] = 28#32
    decide
  have hnull : ofLeBytes32 [0#8, 0#8, 0#8, 0#8] = 0#32 := by decide
  refine ⟨⟨?_, ?_⟩, .inr ⟨Nat.succ_ne_zero 15, ?_, hnull⟩,
    .inr ⟨Nat.succ_ne_zero 23, ?_, hnull⟩⟩
  · apply pointsTo_cons_iff.mpr
    refine ⟨rfl, pointsTo_cons_iff.mpr ?_⟩
    exact ⟨rfl, pointsTo_singleton_iff.mpr rfl⟩
  · intro hmem
    rcases List.mem_cons.mp hmem with heq | hmem
    · exact hb heq.symm
    · exact absurd (List.mem_singleton.mp hmem) (by decide)
  · intro i s hs
    obtain ⟨hi, rfl⟩ := List.getElem?_eq_some_iff.mp hs
    obtain rfl := Nat.lt_one_iff.mp hi
    show readU32 (sampleCall b).mem 16 ≠ 0#32
      ∧ GivenString _ (readU32 (sampleCall b).mem 16).toNat [0x61#8]
    rw [hptr]
    refine ⟨by decide, ?_, by decide⟩
    apply pointsTo_cons_iff.mpr
    exact ⟨rfl, pointsTo_singleton_iff.mpr rfl⟩
  · intro i s hs
    cases hs

/-- A path of two ASCII bytes. -/
theorem execve_arguments_ascii :
    ∃ image, execve sampleMachine (sampleCall 0x78#8) = .ok image
      ∧ ArgumentsKept sampleMachine (sampleCall 0x78#8) image
        [0x78#8, 0x78#8] [[0x61#8]] [] := by
  have hok : (execve sampleMachine (sampleCall 0x78#8)).isOk = true := by
    decide
  obtain ⟨hname, hargs, henvs⟩ := sampleCall_given 0x78#8 (by decide)
  cases h : execve sampleMachine (sampleCall 0x78#8) with
  | error e =>
    rw [h] at hok
    cases hok
  | ok image =>
    refine ⟨image, rfl, ?_⟩
    apply (execve_arguments_iff hname hargs henvs h).mpr
    exact .inr ⟨by decide, by decide⟩

/-- A script at a path of the byte 0xe9 and an `x`: its interpreter gets a
path of three bytes. -/
theorem execve_arguments_latin :
    ∃ image, execve sampleMachine (sampleCall 0xe9#8) = .ok image
      ∧ GivenString (sampleCall 0xe9#8).mem (sampleCall 0xe9#8).filename
        [0xe9#8, 0x78#8]
      ∧ StackHolds image.space.known image.sp
        [[0x73#8], [0xc3#8, 0xa9#8, 0x78#8]] []
      ∧ ¬ ArgumentsKept sampleMachine (sampleCall 0xe9#8) image
        [0xe9#8, 0x78#8] [[0x61#8]] [] := by
  have hok : (execve sampleMachine (sampleCall 0xe9#8)).isOk = true := by
    decide
  obtain ⟨hname, hargs, henvs⟩ := sampleCall_given 0xe9#8 (by decide)
  cases h : execve sampleMachine (sampleCall 0xe9#8) with
  | error e =>
    rw [h] at hok
    cases hok
  | ok image =>
    obtain ⟨p, hp, hstack⟩ := execve_stack hname hargs henvs h
    obtain rfl := Fs.Outcome.found.inj hp
    have hreal : StackHolds image.space.known image.sp
        [[0x73#8], [0xc3#8, 0xa9#8, 0x78#8]] [] := hstack
    refine ⟨image, rfl, hname, hreal, fun hkept => ?_⟩
    obtain ⟨p', hp', hstack'⟩ := hkept
    obtain rfl := Fs.Outcome.found.inj hp'
    have hsame : [[0x73#8], [0xc3#8, 0xa9#8, 0x78#8]] =
        [[0x73#8], [0xe9#8, 0x78#8]] :=
      (hreal.unique hstack').1
    exact absurd hsame (by decide)

end LinuxRs.Exec
