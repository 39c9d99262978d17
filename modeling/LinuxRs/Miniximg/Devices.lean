/-
Device nodes (miniximg/miniximg-core/src/fs.rs).

# The number among the zones

A device node keeps its number in its first zone slot, and
`free_inode_data` takes every slot that is not 0 for a zone, whatever the
kind of the inode. Removing the last name of a device node, or writing a file
over it, so clears the bit of the zone that has the device's number: the zone
of some file, a bit that stands for no zone, or no bit at all, which panics.

# What is compared

To take the node's name out, its directory is rewritten, and that may move
the directory's own zones; what the node itself does to the zone bitmap is
what happens after that. A file written over the node is put down in fresh
zones; what the node itself does is what happens before that, and all there
is when the file is empty.
-/
import LinuxRs.Miniximg.DataSteps
import LinuxRs.Miniximg.Paths

namespace LinuxRs.Miniximg

open Function (update update_idem update_self
  update_eq_self update_eq_self_iff)

open LinuxRs.Lib
open LinuxRs.Minix

variable {fs fs' : MinixFileSystem}

-- ======== an inode at hand

theorem inode_eq (st : MinixFileSystem × DiskInode) :
    InodeIo.inode st = .ok st.2 st := rfl

def bareInode (i : DiskInode) : DiskInode :=
  { i with
    size := 0#32
    directZones := fun _ => 0#16
    singleIndirectZone := 0#16
    doubleIndirectZone := 0#16 }

-- ======== device inodes

/-- The zones of a device node: its number in the first, no other. -/
structure Numbered (inode : DiskInode) (deviceNumber : BitVec 16) : Prop where
  direct : inode.directZones
    = update (fun _ => 0#16) ⟨0, by decide⟩ deviceNumber
  single : inode.singleIndirectZone = 0#16
  double : inode.doubleIndirectZone = 0#16

/-- However the call ends, the zone bitmap is as before. -/
def Untouched {A : Type} (b : Bitmap) :
    EStateM.Result Stop MinixFileSystem A → Prop
  | .ok _ fs => fs.zoneBitmap = b
  | .error (.failed _) fs => fs.zoneBitmap = b
  | .error .panicked _ => False

theorem freeDirects_holes {inode : DiskInode} :
    ∀ {l : List (Fin 7)}, (∀ k ∈ l, inode.directZones k = 0#16) →
      freeDirects l (fs, inode) = .ok () (fs, inode) := by
  intro l
  induction l with
  | nil => exact fun _ => rfl
  | cons k l ih =>
    intro h
    have hhere : freeDirect k (fs, inode) = .ok () (fs, inode) := by
      unfold freeDirect
      rw [bind_of_ok (inode_eq (fs, inode)), if_pos (h k List.mem_cons_self)]
      rfl
    unfold freeDirects
    rw [bind_of_ok hhere]
    exact ih fun j hj => h j (List.mem_cons_of_mem k hj)

theorem freeInodeData_holes {inode : DiskInode}
    (hdirect : inode.directZones = fun _ => 0#16)
    (hsingle : inode.singleIndirectZone = 0#16)
    (hdouble : inode.doubleIndirectZone = 0#16) : (do
      freeSingle
      freeDouble
      InodeIo.change fun i => { i with size := 0#32 } : InodeIo Unit) (fs, inode)
        = .ok () (fs, bareInode inode) := by
  have hone : freeSingle (fs, inode) = .ok () (fs, inode) := by
    unfold freeSingle
    rw [bind_of_ok (inode_eq (fs, inode)), if_pos hsingle]
    rfl
  have htwo : freeDouble (fs, inode) = .ok () (fs, inode) := by
    unfold freeDouble
    rw [bind_of_ok (inode_eq (fs, inode)), if_pos hdouble]
    rfl
  have hbare : bareInode inode = { inode with size := 0#32 } := by
    unfold bareInode
    rw [hdirect, hsingle, hdouble]
  rw [bind_of_ok hone, bind_of_ok htwo, hbare]
  rfl

section Device

variable {inode : DiskInode} {deviceNumber : BitVec 16}

theorem Numbered.number (h : Numbered inode deviceNumber) :
    inode.directZones 0 = deviceNumber := by
  rw [h.direct]
  exact update_self _ _ _

theorem Numbered.others (h : Numbered inode deviceNumber) :
    update inode.directZones 0 0#16 = fun _ => 0#16 := by
  rw [h.direct]
  exact (update_idem _ _ _).trans (update_eq_self _ _)

end Device

end LinuxRs.Miniximg
