/-
Which images miniximg can be given (miniximg/miniximg-core/src/{bitmap,fs}.rs).

# Looking

`Looks` says that an operation leaves a file system as it is and ends with a
value or an error. Everything that lists or reads does so on any file system
whatsoever: zone numbers, sizes, names and entries are checked where they
are used. The walk of `tree` goes into each directory once, so its calls
never outnumber the inode numbers by more than one.

# The bitmaps

What is left are the two bitmaps, whose blocks are as many as the header
says and whose bits are as many as the header's other fields say. `check`
tests a bit for each inode and `inspect` counts all bits of both, so they
need the bits to lie in the blocks; and `open` itself takes one off the first
data zone.
-/
import LinuxRs.Miniximg.FreeCounts

namespace LinuxRs.Miniximg

open LinuxRs.Lib
open LinuxRs.Minix

variable {fs : MinixFileSystem} {A B : Type}

-- ======== looking

/-- An operation leaves the file system as it is, and ends with a value or
an error. -/
def Looks (fs : MinixFileSystem) (x : Io A) : Prop :=
  (∃ a, x fs = .ok a fs) ∨ ∃ e, x fs = .error (.failed e) fs

namespace Looks

theorem pure (a : A) : Looks fs (Pure.pure a) := .inl ⟨a, rfl⟩

theorem fail (e : MinixError) : Looks fs (Io.fail e : Io A) := .inr ⟨e, rfl⟩

theorem check (r : Except MinixError A) : Looks fs (Io.check r) := by
  cases r with
  | ok a => exact .inl ⟨a, rfl⟩
  | error e => exact .inr ⟨e, rfl⟩

theorem of {r : Except Stop A} {a : A} (h : r = .ok a) :
    Looks fs (Io.of r) := by
  subst h
  exact .inl ⟨a, rfl⟩

theorem get {f : MinixFileSystem → Io A} (h : Looks fs (f fs)) :
    Looks fs ((MonadState.get : Io MinixFileSystem) >>= f) := h

theorem bind {x : Io A} {f : A → Io B} (hx : Looks fs x)
    (hf : ∀ a, x fs = .ok a fs → Looks fs (f a)) : Looks fs (x >>= f) := by
  unfold Looks
  rcases hx with ⟨a, ha⟩ | ⟨e, he⟩
  · rw [bind_of_ok ha]
    exact hf a ha
  · exact .inr ⟨e, bind_of_error he⟩

theorem same {x : Io A} (hx : Looks fs x) {a : A} {fs' : MinixFileSystem}
    (h : x fs = .ok a fs') : fs = fs' := by
  rcases hx with ⟨a', ha⟩ | ⟨e, he⟩
  · rw [ha] at h
    exact (EStateM.Result.ok.inj h).2
  · rw [he] at h
    cases h

theorem ite {c : Prop} [Decidable c] {x y : Io A} (hx : Looks fs x)
    (hy : Looks fs y) : Looks fs (if c then x else y) := by
  split
  · exact hx
  · exact hy

theorem attempt_ok {x : Io A} (hx : Looks fs x) :
    ∃ r, Io.attempt x fs = .ok r fs := by
  unfold Io.attempt
  rcases hx with ⟨a, ha⟩ | ⟨e, he⟩
  · rw [ha]
    exact ⟨_, rfl⟩
  · rw [he]
    exact ⟨_, rfl⟩

theorem attempt {x : Io A} (hx : Looks fs x) : Looks fs (Io.attempt x) :=
  .inl hx.attempt_ok

end Looks

-- ======== reading

theorem looks_readBlock (n : Nat) : Looks fs (readBlock n) := by
  unfold Looks readBlock Storage.read
  split
  · exact .inl ⟨_, rfl⟩
  · exact .inr ⟨_, rfl⟩

theorem looks_readIndirectBlock (zone : Zone) :
    Looks fs (readIndirectBlock zone) :=
  (looks_readBlock _).bind fun _ _ => .pure _

theorem looks_readInode (n : BitVec 16) : Looks fs (readInode n) :=
  .get <| .ite (.fail _) <| (looks_readBlock _).bind fun _ _ => .pure _

theorem looks_lookupDataZone (inode : DiskInode) (logicalBlock : Nat) :
    Looks fs (lookupDataZone inode logicalBlock) := by
  unfold lookupDataZone
  split
  next => exact .fail _
  next => exact .pure _
  next =>
    exact .ite (.pure _) <| (looks_readIndirectBlock _).bind fun _ _ => .pure _
  next =>
    refine .ite (.pure _) <| (looks_readIndirectBlock _).bind fun _ _ => ?_
    exact .ite (.pure _) <| (looks_readIndirectBlock _).bind fun _ _ => .pure _

theorem looks_readContentsFrom (inode : DiskInode) :
    ∀ (left logicalBlock : Nat) (data : Nat → Byte),
      Looks fs (readContentsFrom inode logicalBlock left data) := by
  intro left
  induction left with
  | zero => exact fun _ _ => .pure _
  | succ left ih =>
    intro logicalBlock data
    refine (looks_lookupDataZone _ _).bind fun zone _ => ?_
    exact .ite (ih _ _) <| (looks_readBlock _).bind fun _ _ => ih _ _

theorem looks_readInodeContents (inode : DiskInode) :
    Looks fs (readInodeContents inode) :=
  (looks_readContentsFrom _ _ _ _).bind fun _ _ => .pure _

theorem looks_readDirectoryEntries (n : BitVec 16) :
    Looks fs (readDirectoryEntries n) := by
  refine (looks_readInode n).bind fun inode _ => .ite (.fail _) ?_
  exact (looks_readInodeContents inode).bind fun _ _ =>
    .ite (.fail _) (.pure _)

theorem looks_lookupChild (n : BitVec 16) (name : Text) :
    Looks fs (lookupChild n name) :=
  (looks_readDirectoryEntries n).bind fun _ _ => .check _

theorem looks_resolveFrom (path : ImagePath) :
    ∀ (rest : List Text) (current : BitVec 16),
      Looks fs (resolveFrom path rest current) := by
  intro rest
  induction rest with
  | nil => exact fun _ => .pure _
  | cons component rest ih =>
    intro current
    refine (looks_readInode current).bind fun inode _ => .ite (.fail _) ?_
    refine (looks_lookupChild _ _).bind fun child _ => ?_
    cases child with
    | some child => exact ih child
    | none => exact .fail _

theorem looks_resolvePath (path : ImagePath) : Looks fs (resolvePath path) :=
  looks_resolveFrom path path _

theorem looks_nodeMetadata (path : Text) (n : BitVec 16) :
    Looks fs (nodeMetadata path n) := by
  refine (looks_readInode n).bind fun inode _ => ?_
  split
  next => exact .fail _
  next => exact .pure _

theorem looks_listEntries (basePath : Text) :
    ∀ entries : List DiskDirectoryEntry,
      Looks fs (listEntries basePath entries) := by
  intro entries
  induction entries with
  | nil => exact .pure _
  | cons e rest ih =>
    refine .ite ih <| (Looks.check _).bind fun name _ => .ite ih ?_
    exact (looks_nodeMetadata _ _).bind fun _ _ => ih.bind fun _ _ => .pure _

theorem looks_listDirectory (n : BitVec 16) (basePath : Text) :
    Looks fs (listDirectory n basePath) :=
  (looks_readDirectoryEntries n).bind fun _ _ =>
    (looks_listEntries _ _).bind fun _ _ => .pure _

theorem looks_stat (path : Text) : Looks fs (stat path) :=
  (Looks.check _).bind fun _ _ => (looks_resolvePath _).bind fun _ _ =>
    looks_nodeMetadata _ _

theorem looks_listPath (path : Text) : Looks fs (listPath path) := by
  refine (Looks.check _).bind fun _ _ => (looks_resolvePath _).bind fun _ _ =>
    (looks_readInode _).bind fun inode _ => ?_
  split
  next => exact looks_listDirectory _ _
  next => exact (looks_nodeMetadata _ _).bind fun _ _ => .pure _
  next => exact .fail _

theorem looks_readFileAtPath (path : Text) :
    Looks fs (readFileAtPath path) := by
  refine (Looks.check _).bind fun _ _ => (looks_resolvePath _).bind fun _ _ =>
    (looks_readInode _).bind fun inode _ => ?_
  split
  next => exact looks_readInodeContents _
  next => exact .fail _
  next => exact .fail _
  next => exact .fail _

-- ======== tree

theorem length_le_of_nodup {l : List (BitVec 16)} (h : l.Nodup) :
    l.length ≤ 65536 := by
  have hnodup : (l.map BitVec.toNat).Nodup :=
    h.map fun _ _ heq => BitVec.eq_of_toNat_eq heq
  have hsub : l.map BitVec.toNat ⊆ List.range 65536 := by
    intro k hk
    obtain ⟨n, -, rfl⟩ := List.mem_map.mp hk
    exact List.mem_range.mpr n.isLt
  have hle := (hnodup.subperm hsub).length_le
  rw [List.length_map, List.length_range] at hle
  exact hle

/-- What a part of the walk does: it looks, and the directories that have
been visited stay visited, each once. -/
def Walks (fs : MinixFileSystem) (walk : TreeWalk) (x : Io TreeWalk) : Prop :=
  (∃ walk', x fs = .ok walk' fs ∧ walk'.visited.Nodup ∧
    walk.visited.length ≤ walk'.visited.length) ∨
  ∃ e, x fs = .error (.failed e) fs

theorem walks_walkChildren {visit : DirectoryEntryInfo → TreeWalk → Io TreeWalk}
    {n : Nat}
    (hvisit : ∀ child walk, walk.visited.Nodup → n ≤ walk.visited.length →
      Walks fs walk (visit child walk)) :
    ∀ (children : List DirectoryEntryInfo) (walk : TreeWalk),
      walk.visited.Nodup → n ≤ walk.visited.length →
      Walks fs walk (walkChildren visit children walk) := by
  intro children
  induction children with
  | nil => exact fun walk hnodup _ => .inl ⟨walk, rfl, hnodup, Nat.le_refl _⟩
  | cons child rest ih =>
    intro walk hnodup hn
    unfold Walks walkChildren
    rcases hvisit child walk hnodup hn with ⟨walk', hok, hnodup', hle⟩ |
      ⟨e, he⟩
    · rw [bind_of_ok hok]
      rcases ih walk' hnodup' (by omega) with ⟨walk'', hok', hnodup'', hle'⟩ |
        ⟨e, he⟩
      · exact .inl ⟨walk'', hok', hnodup'', by omega⟩
      · exact .inr ⟨e, he⟩
    · exact .inr ⟨e, bind_of_error he⟩

/-- The walk ends, since no inode is visited twice. -/
theorem walks_collectTreeEntries :
    ∀ (frames : Nat) (path : Text) (n : BitVec 16) (depth : Nat)
      (walk : TreeWalk), walk.visited.Nodup →
      65536 < frames + walk.visited.length →
      Walks fs walk (collectTreeEntries frames path n depth walk) := by
  intro frames
  induction frames with
  | zero =>
    intro path n depth walk hnodup hroom
    have hle := length_le_of_nodup hnodup
    omega
  | succ frames ih =>
    intro path n depth walk hnodup hroom
    have hmetadata : Looks fs (nodeMetadata path n) := looks_nodeMetadata _ _
    have hlist : Looks fs (listDirectory n path) := looks_listDirectory _ _
    unfold Walks collectTreeEntries
    rcases hmetadata with ⟨metadata, hok⟩ | ⟨e, he⟩
    · rw [bind_of_ok hok]
      split
      next => exact .inl ⟨_, rfl, hnodup, Nat.le_refl _⟩
      next hnew =>
        have hfresh : n ∉ walk.visited := fun hmem => hnew (.inr hmem)
        rcases hlist with ⟨children, hok'⟩ | ⟨e, he⟩
        · rw [bind_of_ok hok']
          have hchildren := walks_walkChildren
            (fun child walk' hnodup' (hle : walk.visited.length + 1 ≤ _) =>
              ih child.metadata.path child.metadata.inodeNumber (depth + 1)
                walk' hnodup' (by omega))
            children ⟨n :: walk.visited, walk.entries ++ [⟨depth, metadata⟩]⟩
            (List.nodup_cons.mpr ⟨hfresh, hnodup⟩) (Nat.le_refl _)
          rcases hchildren with ⟨walk', hrun, hnodup', hle⟩ | ⟨e, he⟩
          · have hle : walk.visited.length + 1 ≤ walk'.visited.length := hle
            exact .inl ⟨walk', hrun, hnodup', by omega⟩
          · exact .inr ⟨e, he⟩
        · exact .inr ⟨e, bind_of_error he⟩
    · exact .inr ⟨e, bind_of_error he⟩

theorem looks_tree {frames : Nat} (h : 65536 < frames) (path : Text) :
    Looks fs (tree frames path) := by
  refine (Looks.check _).bind fun path _ => (looks_resolvePath _).bind
    fun n _ => Looks.bind ?_ fun _ _ => .pure _
  have hwalk : Walks fs ⟨[], []⟩
      (collectTreeEntries frames path.display n 0 ⟨[], []⟩) :=
    walks_collectTreeEntries _ _ _ _ _ List.nodup_nil h
  rcases hwalk with ⟨walk, hok, -⟩ | ⟨e, he⟩
  · exact .inl ⟨walk, hok⟩
  · exact .inr ⟨e, he⟩

-- ======== check

namespace Bitmap

theorem isSet_cases (b : Bitmap) (value : Nat) :
    (∃ on, b.isSet value = .ok on) ∨ b.isSet value = .error .panicked := by
  unfold isSet bit
  split
  next => exact .inl ⟨_, rfl⟩
  next =>
    split
    next => exact .inl ⟨_, rfl⟩
    next =>
      split
      next => exact .inl ⟨_, rfl⟩
      next => exact .inr rfl

theorem Roomy.isSet {b : Bitmap} (h : b.Roomy) (value : Nat) :
    ∃ on, b.isSet value = .ok on := by
  unfold Bitmap.isSet bit
  split
  next => exact ⟨_, rfl⟩
  next =>
    split
    next => exact ⟨_, rfl⟩
    next hlt =>
      rw [if_pos (h.block (Nat.lt_of_not_le hlt))]
      exact ⟨_, rfl⟩

theorem countFreeFrom_cases (b : Bitmap) :
    ∀ left relative : Nat, (∃ c, b.countFreeFrom relative left = .ok c) ∨
      b.countFreeFrom relative left = .error .panicked := by
  intro left
  induction left with
  | zero => exact fun _ => .inl ⟨0, rfl⟩
  | succ left ih =>
    intro relative
    have hrun : b.countFreeFrom relative (left + 1) =
        (b.isSet (b.startIndex + relative)) >>= fun taken =>
          (b.countFreeFrom (relative + 1) left) >>= fun rest =>
            pure (if taken = true then rest else rest + 1) := rfl
    rw [hrun]
    rcases b.isSet_cases (b.startIndex + relative) with ⟨on, hon⟩ | hpanic
    · rw [hon]
      rcases ih (relative + 1) with ⟨c, hc⟩ | hpanic
      · rw [hc]
        exact .inl ⟨_, rfl⟩
      · rw [hpanic]
        exact .inr rfl
    · rw [hpanic]
      exact .inr rfl

theorem countFree_panicked {b : Bitmap} (h : ¬ b.Roomy) :
    b.countFree = .error .panicked := by
  rcases b.countFreeFrom_cases b.bitCount 0 with ⟨c, hc⟩ | hpanic
  · exact absurd (countFree_ok.mp hc).1 h
  · exact hpanic

end Bitmap

theorem looks_isSet (h : fs.inodeBitmap.Roomy) (value : Nat) :
    Looks fs (Io.of (fs.inodeBitmap.isSet value)) := by
  obtain ⟨on, hon⟩ := h.isSet value
  exact .of hon

theorem looks_collectReferencedFrom (h : fs.inodeBitmap.Roomy) :
    ∀ numbers referenced : List (BitVec 16),
      Looks fs (collectReferencedFrom numbers referenced) := by
  intro numbers
  induction numbers with
  | nil => exact fun _ => .pure _
  | cons n rest ih =>
    intro referenced
    refine .get <| (looks_isSet h _).bind fun on _ => .ite (ih _) ?_
    refine (looks_readInode n).attempt.bind fun inode _ => ?_
    cases inode with
    | error e => exact ih _
    | ok inode =>
      refine .ite (ih _) ?_
      refine (looks_readDirectoryEntries n).attempt.bind fun entries _ => ?_
      cases entries with
      | error e => exact ih _
      | ok entries => exact ih _

theorem looks_checkInnerTables (n : BitVec 16) :
    ∀ zones : List Zone, Looks fs (checkInnerTables n zones) := by
  intro zones
  induction zones with
  | nil => exact .pure _
  | cons zone rest ih =>
    refine .get <| .ite (ih.bind fun _ _ => .pure _) ?_
    refine (looks_readIndirectBlock zone).attempt.bind fun table _ => ?_
    cases table with
    | error e => exact ih
    | ok table => exact ih.bind fun _ _ => .pure _

theorem looks_checkSingle (n : BitVec 16) (inode : DiskInode) :
    Looks fs (checkSingle n inode) := by
  refine .get <| .ite (.pure _) <| .ite (.pure _) ?_
  refine (looks_readIndirectBlock _).attempt.bind fun table _ => ?_
  cases table with
  | error e => exact .pure _
  | ok table => exact .pure _

theorem looks_checkDouble (n : BitVec 16) (inode : DiskInode) :
    Looks fs (checkDouble n inode) := by
  refine .get <| .ite (.pure _) <| .ite (.pure _) ?_
  refine (looks_readIndirectBlock _).attempt.bind fun table _ => ?_
  cases table with
  | error e => exact .pure _
  | ok table => exact looks_checkInnerTables _ _

theorem looks_checkInodeZones (n : BitVec 16) (inode : DiskInode) :
    Looks fs (checkInodeZones n inode) :=
  .get <| (looks_checkSingle _ _).bind fun _ _ =>
    (looks_checkDouble _ _).bind fun _ _ => .pure _

theorem looks_checkDirectoryEntries (n : BitVec 16) (inode : DiskInode) :
    Looks fs (checkDirectoryEntries n inode) := by
  refine .get <| .ite (.pure _) ?_
  refine (looks_readDirectoryEntries n).attempt.bind fun entries _ => ?_
  cases entries with
  | error e => exact .pure _
  | ok entries => exact .pure _

theorem looks_checkInode (h : fs.inodeBitmap.Roomy)
    (referenced : List (BitVec 16)) (n : BitVec 16) :
    Looks fs (checkInode referenced n) := by
  refine .get <| (looks_isSet h _).bind fun on _ => .ite (.pure _) ?_
  refine (looks_readInode n).attempt.bind fun inode _ => ?_
  cases inode with
  | error e => exact .pure _
  | ok inode =>
    dsimp only
    split
    next => exact .ite (.pure _) (.pure _)
    next =>
      refine Looks.bind ?_ fun _ _ => Looks.bind ?_ fun _ _ => .pure _
      · exact .ite (looks_checkInodeZones _ _) (.pure _)
      · exact .ite (looks_checkDirectoryEntries _ _) (.pure _)

theorem looks_checkInodes (h : fs.inodeBitmap.Roomy)
    (referenced : List (BitVec 16)) :
    ∀ numbers : List (BitVec 16), Looks fs (checkInodes referenced numbers) := by
  intro numbers
  induction numbers with
  | nil => exact .pure _
  | cons n rest ih =>
    exact (looks_checkInode h referenced n).bind fun _ _ =>
      ih.bind fun _ _ => .pure _

theorem looks_checkRoot (h : fs.inodeBitmap.Roomy) : Looks fs checkRoot :=
  .get <| (looks_isSet h _).bind fun _ _ =>
    (looks_readInode _).attempt.bind fun _ _ => .pure _

theorem looks_check (h : fs.inodeBitmap.Roomy) : Looks fs check :=
  (Looks.get (looks_collectReferencedFrom h _ _)).bind fun _ _ =>
    (looks_checkRoot h).bind fun _ _ =>
      .get <| (looks_checkInodes h _ _).bind fun _ _ => .pure _

theorem looks_inspect (h : fs.inodeBitmap.Roomy) (h' : fs.zoneBitmap.Roomy) :
    Looks fs inspect :=
  .get <| (Looks.of (Bitmap.countFree_ok.mpr ⟨h, rfl⟩)).bind fun _ _ =>
    (Looks.of (Bitmap.countFree_ok.mpr ⟨h', rfl⟩)).bind fun _ _ =>
      (looks_listDirectory _ _).bind fun _ _ => .pure _

/-- A number outside the bitmap panics, wherever in the list it stands. -/
theorem collectReferencedFrom_panics {n : BitVec 16}
    (h : fs.inodeBitmap.isSet n.toNat = .error .panicked) :
    ∀ numbers referenced : List (BitVec 16), n ∈ numbers →
      collectReferencedFrom numbers referenced fs = .error .panicked fs := by
  intro numbers
  induction numbers with
  | nil => exact nofun
  | cons m rest ih =>
    intro referenced hn
    unfold collectReferencedFrom
    rw [bind_of_ok (rfl : (get : Io _) fs = .ok fs fs)]
    rcases fs.inodeBitmap.isSet_cases m.toNat with ⟨on, hon⟩ | hpanic
    · have hrest : n ∈ rest := by
        rcases List.mem_cons.mp hn with rfl | hn
        · rw [hon] at h
          cases h
        · exact hn
      rw [hon, bind_of_ok (rfl : Io.of (.ok on) fs = .ok on fs)]
      split
      next => exact ih _ hrest
      next =>
        have hinode : Looks fs (readInode m) := looks_readInode m
        obtain ⟨inode, hinode⟩ := hinode.attempt_ok
        rw [bind_of_ok hinode]
        cases inode with
        | error e => exact ih _ hrest
        | ok inode =>
          dsimp only
          split
          next => exact ih _ hrest
          next =>
            have hentries : Looks fs (readDirectoryEntries m) :=
              looks_readDirectoryEntries m
            obtain ⟨entries, hentries⟩ := hentries.attempt_ok
            rw [bind_of_ok hentries]
            cases entries with
            | error e => exact ih _ hrest
            | ok entries => exact ih _ hrest
    · rw [hpanic]
      rfl

-- ======== opening

/-- The operations that list, read and check end with values or errors. -/
structure Safe (fs : MinixFileSystem) : Prop where
  check : Looks fs check
  inspect : Looks fs inspect
  stat : ∀ path, Looks fs (stat path)
  list : ∀ path, Looks fs (listPath path)
  tree : ∀ frames path, 65536 < frames → Looks fs (tree frames path)
  read : ∀ path, Looks fs (readFileAtPath path)

/-- An image gets past the checks of `open`: its super block passes them,
and the blocks of both bitmaps are there. -/
structure Admits (bytes : List Byte) (sb : DiskSuperBlock) : Prop where
  header : sb = DiskSuperBlock.decode ((Storage.ofBytes bytes).blocks 1)
  checks : checkSuperBlock sb = .ok ()
  blocks : 2 + sb.inodeBitmapBlockCount.toNat + sb.zoneBitmapBlockCount.toNat
    ≤ bytes.length / blockSize

/-- The image is open with the bitmaps that its super block describes. -/
structure Opened (sb : DiskSuperBlock) (fs : MinixFileSystem) : Prop where
  superBlock : fs.superBlock = sb
  inodeStart : fs.inodeBitmap.startIndex = 0
  inodeBits : fs.inodeBitmap.bitCount = sb.inodeCount.toNat + 1
  inodeBlocks : fs.inodeBitmap.blockCount = sb.inodeBitmapBlockCount.toNat
  zoneBits : fs.zoneBitmap.bitCount
    = sb.zoneCount.toNat - sb.firstDataZone.toNat + 1
  zoneBlocks : fs.zoneBitmap.blockCount = sb.zoneBitmapBlockCount.toNat

theorem readBlocks_cases (s : Storage) : ∀ left start : Nat,
      (∃ l, readBlocks s start left = .ok l ∧ l.length = left ∧
        (start ≤ s.count → start + left ≤ s.count)) ∨
      (∃ e, readBlocks s start left = .error (.failed e)) ∧
        s.count < start + left := by
  intro left
  induction left with
  | zero => exact fun start => .inl ⟨[], rfl, rfl, fun h => h⟩
  | succ left ih =>
    intro start
    have hrun : readBlocks s start (left + 1) = (s.read start) >>= fun block =>
      (readBlocks s (start + 1) left) >>= fun rest =>
        pure (block :: rest) := rfl
    rw [hrun]
    by_cases hlt : start < s.count
    · have hread : s.read start = .ok (s.blocks start) := if_pos hlt
      rw [hread]
      rcases ih (start + 1) with ⟨l, hl, hlen, hfit⟩ | ⟨⟨e, he⟩, hshort⟩
      · rw [hl]
        refine .inl ⟨_, rfl, ?_, fun _ => ?_⟩
        · rw [List.length_cons, hlen]
        · have hfit := hfit hlt
          omega
      · rw [he]
        exact .inr ⟨⟨e, rfl⟩, by omega⟩
    · have hread : s.read start
          = .error (.failed (.io (text "failed to read image block"))) :=
        if_neg hlt
      rw [hread]
      exact .inr ⟨⟨_, rfl⟩, by omega⟩

/-- The file system that `open` makes of a header and the bitmap blocks. -/
def loaded (storage : Storage) (sb : DiskSuperBlock)
    (inodeBlocks zoneBlocks : List Block) : MinixFileSystem where
  storage := storage
  superBlock := sb
  inodeBitmap := .fromBlocks 0 (sb.inodeCount.toNat + 1) inodeBlocks
  zoneBitmap := .fromBlocks (sb.firstDataZone.toNat - 1)
    (sb.zoneCount.toNat - sb.firstDataZone.toNat + 1) zoneBlocks

theorem openImage_checked {storage : Storage} {sb : DiskSuperBlock}
    (hread : storage.read 1 = .ok (storage.blocks 1))
    (hsb : DiskSuperBlock.decode (storage.blocks 1) = sb)
    (hcheck : checkSuperBlock sb = .ok ()) : openImage storage =
      (readBlocks storage 2 sb.inodeBitmapBlockCount.toNat >>= fun inodeBlocks =>
        readBlocks storage (2 + sb.inodeBitmapBlockCount.toNat)
          sb.zoneBitmapBlockCount.toNat >>= fun zoneBlocks =>
            if sb.firstDataZone.toNat = 0 then .error .panicked
            else .ok (loaded storage sb inodeBlocks zoneBlocks)) := by
  simp only [openImage, hread, bind, Except.bind, hsb, hcheck, Except.mapError]
  cases readBlocks storage 2 sb.inodeBitmapBlockCount.toNat with
  | error e => rfl
  | ok inodeBlocks =>
    cases readBlocks storage (2 + sb.inodeBitmapBlockCount.toNat)
      sb.zoneBitmapBlockCount.toNat with
    | error e => rfl
    | ok zoneBlocks => rfl

/-- What opening an image comes to: an error, a panic, or the image. -/
theorem openImage_cases (bytes : List Byte) :
    ((∃ e, openImage (.ofBytes bytes) = .error (.failed e)) ∧
      ∀ sb, ¬ Admits bytes sb) ∨
    ∃ sb, Admits bytes sb ∧ ((sb.firstDataZone.toNat = 0 ∧
        openImage (.ofBytes bytes) = .error .panicked) ∨
      (sb.firstDataZone.toNat ≠ 0 ∧
        ∃ fs, openImage (.ofBytes bytes) = .ok fs ∧ Opened sb fs)) := by
  generalize hstorage : Storage.ofBytes bytes = storage
  have hcount : storage.count = bytes.length / blockSize := by
    rw [← hstorage]
    rfl
  have hadmits : ∀ sb, Admits bytes sb →
      sb = DiskSuperBlock.decode (storage.blocks 1) ∧
      checkSuperBlock sb = .ok () ∧ 2 + sb.inodeBitmapBlockCount.toNat
        + sb.zoneBitmapBlockCount.toNat ≤ storage.count := by
    intro sb h
    exact ⟨hstorage ▸ h.header, h.checks, hcount ▸ h.blocks⟩
  by_cases hone : 1 < storage.count
  swap
  · have hread : storage.read 1
        = .error (.failed (.io (text "failed to read image block"))) :=
      if_neg hone
    refine .inl ⟨?_, fun sb h => ?_⟩
    · unfold openImage
      rw [hread]
      exact ⟨_, rfl⟩
    · have hfit := (hadmits sb h).2.2
      omega
  have hread : storage.read 1 = .ok (storage.blocks 1) := if_pos hone
  generalize hsb : DiskSuperBlock.decode (storage.blocks 1) = sb at *
  cases hcheck : checkSuperBlock sb with
  | error e =>
    refine .inl ⟨⟨e, ?_⟩, fun sb' h => ?_⟩
    · simp only [openImage, hread, bind, Except.bind, hsb, hcheck,
        Except.mapError]
    · obtain ⟨rfl, hok, -⟩ := hadmits sb' h
      rw [hcheck] at hok
      cases hok
  | ok u =>
    rw [openImage_checked hread hsb hcheck]
    rcases readBlocks_cases storage sb.inodeBitmapBlockCount.toNat 2 with
      ⟨inodeBlocks, hinode, hilen, hifit⟩ | ⟨⟨e, he⟩, hshort⟩
    swap
    · refine .inl ⟨⟨e, by rw [he]; rfl⟩, fun sb' h => ?_⟩
      obtain ⟨rfl, -, hfit⟩ := hadmits sb' h
      omega
    rw [hinode]
    simp only [bind, Except.bind]
    rcases readBlocks_cases storage sb.zoneBitmapBlockCount.toNat
      (2 + sb.inodeBitmapBlockCount.toNat) with
      ⟨zoneBlocks, hzone, hzlen, hzfit⟩ | ⟨⟨e, he⟩, hshort⟩
    swap
    · refine .inl ⟨⟨e, by rw [he]⟩, fun sb' h => ?_⟩
      obtain ⟨rfl, -, hfit⟩ := hadmits sb' h
      omega
    rw [hzone]
    refine .inr ⟨sb, ⟨?_, hcheck, ?_⟩, ?_⟩
    · rw [hstorage, hsb]
    · rw [← hcount]
      exact hzfit (hifit hone)
    · by_cases hzero : sb.firstDataZone.toNat = 0
      · exact .inl ⟨hzero, if_pos hzero⟩
      · exact .inr ⟨hzero, _, if_neg hzero, ⟨rfl, rfl, rfl, hilen, rfl, hzlen⟩⟩

variable {sb : DiskSuperBlock}

theorem Opened.inodeRoomy (h : Opened sb fs) : fs.inodeBitmap.Roomy ↔
    sb.inodeCount.toNat < sb.inodeBitmapBlockCount.toNat * bitsPerBlock := by
  unfold Bitmap.Roomy
  rw [h.inodeBits, h.inodeBlocks]
  omega

theorem Opened.zoneRoomy (h : Opened sb fs) : fs.zoneBitmap.Roomy ↔
    sb.zoneCount.toNat - sb.firstDataZone.toNat
      < sb.zoneBitmapBlockCount.toNat * bitsPerBlock := by
  unfold Bitmap.Roomy
  rw [h.zoneBits, h.zoneBlocks]
  omega

theorem Opened.check_panics (h : Opened sb fs) (hcount : sb.inodeCount ≠ 0#16)
    (hroomy : ¬ fs.inodeBitmap.Roomy) : check fs = .error .panicked fs := by
  have hlast : fs.inodeBitmap.isSet sb.inodeCount.toNat = .error .panicked := by
    have hblocks := mt h.inodeRoomy.mpr hroomy
    unfold Bitmap.isSet Bitmap.bit
    rw [h.inodeStart, h.inodeBits, h.inodeBlocks, if_neg (Nat.not_lt_zero _),
      Nat.sub_zero, if_neg (by omega), if_neg]
    unfold bitsPerBlock at *
    omega
  have hmem : sb.inodeCount ∈ inodeNumbers sb := by
    have hpos : sb.inodeCount.toNat ≠ 0 := fun hzero =>
      hcount (BitVec.eq_of_toNat_eq hzero)
    refine List.mem_map.mpr ⟨sb.inodeCount.toNat - 1,
      List.mem_range.mpr (by omega), ?_⟩
    rw [Nat.sub_add_cancel (by omega), BitVec.ofNat_toNat, BitVec.setWidth_eq]
  have hfirst : collectReferencedInodes fs = .error .panicked fs := by
    unfold collectReferencedInodes
    rw [bind_of_ok (rfl : (get : Io _) fs = .ok fs fs), h.superBlock]
    exact collectReferencedFrom_panics hlast _ _ hmem
  exact bind_of_error hfirst

theorem inspect_panics
    (hroomy : ¬ (fs.inodeBitmap.Roomy ∧ fs.zoneBitmap.Roomy)) :
    inspect fs = .error .panicked fs := by
  unfold inspect
  rw [bind_of_ok (rfl : (get : Io _) fs = .ok fs fs)]
  by_cases hinode : fs.inodeBitmap.Roomy
  · rw [Bitmap.countFree_ok.mpr ⟨hinode, rfl⟩,
      bind_of_ok (rfl : Io.of (.ok _) fs = .ok _ fs),
      Bitmap.countFree_panicked fun hzone => hroomy ⟨hinode, hzone⟩]
    exact bind_of_error rfl
  · rw [Bitmap.countFree_panicked hinode]
    exact bind_of_error rfl

theorem inodeCount_ne_zero (h : checkSuperBlock sb = .ok ()) :
    sb.inodeCount ≠ 0#16 := by
  unfold checkSuperBlock at h
  split at h
  next => cases h
  next =>
    split at h
    next => cases h
    next =>
      split at h
      next => cases h
      next hcount => exact hcount

/-- For every byte string: `open` does not panic, and on the file system it
may return nothing that checks, lists or reads does, exactly when an image
that gets past the checks of `open` has a first data zone, and bitmap blocks
for all inodes and all data zones. -/
theorem open_safe_iff (bytes : List Byte) :
    (openImage (.ofBytes bytes) ≠ .error .panicked ∧
      ∀ fs, openImage (.ofBytes bytes) = .ok fs → Safe fs) ↔
    ∀ sb, Admits bytes sb → sb.firstDataZone.toNat ≠ 0 ∧
      sb.inodeCount.toNat < sb.inodeBitmapBlockCount.toNat * bitsPerBlock ∧
      sb.zoneCount.toNat - sb.firstDataZone.toNat
        < sb.zoneBitmapBlockCount.toNat * bitsPerBlock := by
  rcases openImage_cases bytes with ⟨⟨e, he⟩, hnone⟩ |
    ⟨sb, hadmits, ⟨hzero, hpanic⟩ | ⟨hzero, fs, hopen, hopened⟩⟩
  · rw [he]
    refine ⟨fun _ sb hsb => absurd hsb (hnone sb), fun _ => ⟨nofun, nofun⟩⟩
  · exact ⟨fun h => absurd hpanic h.1, fun h => absurd hzero (h sb hadmits).1⟩
  · have hsame : ∀ sb', Admits bytes sb' → sb' = sb := fun sb' h =>
      h.header.trans hadmits.header.symm
    rw [hopen]
    constructor
    · intro h sb' hsb'
      obtain rfl := hsame sb' hsb'
      have hsafe := h.2 fs rfl
      refine ⟨hzero, hopened.inodeRoomy.mp ?_, hopened.zoneRoomy.mp ?_⟩
      · by_contra hroomy
        have hpanic := hopened.check_panics
          (inodeCount_ne_zero hadmits.checks) hroomy
        rcases hsafe.check with ⟨a, ha⟩ | ⟨e, he⟩
        · rw [hpanic] at ha
          cases ha
        · rw [hpanic] at he
          cases he
      · by_contra hroomy
        have hpanic := inspect_panics fun h => hroomy h.2
        rcases hsafe.inspect with ⟨a, ha⟩ | ⟨e, he⟩
        · rw [hpanic] at ha
          cases ha
        · rw [hpanic] at he
          cases he
    · intro h
      refine ⟨nofun, fun fs' hfs' => ?_⟩
      cases hfs'
      obtain ⟨-, hinode, hzone⟩ := h sb hadmits
      have hinode := hopened.inodeRoomy.mpr hinode
      have hzone := hopened.zoneRoomy.mpr hzone
      exact {
        check := looks_check hinode
        inspect := looks_inspect hinode hzone
        stat := looks_stat
        list := looks_listPath
        tree := fun frames path hframes => looks_tree hframes path
        read := looks_readFileAtPath }

/-- Two blocks: the second holds a super block with one inode, one zone and
the first data zone 0. -/
def zeroFirstZone : List Byte :=
  List.replicate 1024 0#8 ++ (DiskSuperBlock.encode
    ⟨1#16, 1#16, 0#16, 0#16, 0#16, 0#16, maxFileSize, minixSuperMagic⟩
    ++ List.replicate 1006 0#8)

/-- `open` underflows on it. -/
theorem open_panics : openImage (.ofBytes zeroFirstZone) = .error .panicked := by
  have hsb : DiskSuperBlock.decode ((Storage.ofBytes zeroFirstZone).blocks 1)
      = ⟨1#16, 1#16, 0#16, 0#16, 0#16, 0#16, maxFileSize, minixSuperMagic⟩ := by
    decide +kernel
  rw [openImage_checked (if_pos (by decide +kernel)) hsb (by decide)]
  rfl

end LinuxRs.Miniximg
