-- SUMMARY: States that show the same files, and files that two states have in common.
import Xv6.FileSystem.FileRefinement
import Xv6.FileSystem.Holes
import Xv6.FileSystem.Invariant

/-! # Common files

`Fs.Same` relates states with the same disk and the same inodes: entries of the inode
cache may move between them. `Fs.SameFile` relates states in which one file is the
same.
-/

namespace Xv6

open Prog

/-! ## States with the same files -/

/-- Disk and views are the same. -/
structure Fs.Same (s t : Fs) : Prop where
  sb : t.sb = s.sb
  disk : t.disk = s.disk
  view : ∀ i, t.view i = s.view i

namespace Fs.Same

variable {s t u : Fs}

theorem refl (s : Fs) : Same s s := ⟨rfl, rfl, fun _ => rfl⟩

theorem trans (h : Same s t) (h' : Same t u) : Same s u :=
  ⟨h'.sb.trans h.sb, h'.disk.trans h.disk, fun i => (h'.view i).trans (h.view i)⟩

theorem forest (h : Same s t) : t.forest = s.forest := by
  unfold Fs.forest Allocated
  simp only [h.sb, h.disk, h.view]

theorem blockAddr (h : Same s t) : t.blockAddr = s.blockAddr := by
  unfold Fs.blockAddr
  rw [h.forest]

theorem byte (h : Same s t) : t.byte = s.byte := by
  unfold Fs.byte Fs.block
  rw [h.blockAddr, h.disk]

theorem file (h : Same s t) : t.file = s.file := by
  unfold Fs.file
  simp only [h.sb, h.view, h.byte]

theorem mapped (h : Same s t) {i off m : Nat} : t.Mapped i off m ↔ s.Mapped i off m := by
  unfold Mapped
  rw [h.blockAddr]

theorem setLog (s : Fs) (l : Log) : Same s (s.setLog l) := ⟨rfl, rfl, fun _ => rfl⟩

theorem lockInode (h : s.Inv) {ip : InodePtr} (hip : s.Held ip) : Same s (s.lockInode ip) :=
  ⟨rfl, rfl, h.lockInode_view hip⟩

theorem unlockInode (h : s.Inv) (ip : InodePtr) : Same s (s.unlockInode ip) := by
  refine ⟨rfl, rfl, fun i => ?_⟩
  have hview := (view_setInode h.cacheInj ip { s.icache ip with locked := false } Iff.rfl rfl rfl).2 i
  unfold Fs.unlockInode
  rw [hview]
  split
  · next hc => rw [view_of_caches h.cacheInj hc]
  · rfl

end Fs.Same

/-! ## One file in two states -/

namespace Fs

/-- File `j` is the same in both states. -/
structure SameFile (s t : Fs) (j : Nat) : Prop where
  type : (t.view j).type = (s.view j).type
  size : (t.view j).size = (s.view j).size
  blockAddr : t.blockAddr j = s.blockAddr j
  byte : t.byte j = s.byte j

/-- The same pointers in the inode, over the same data blocks. -/
theorem SameFile.of_view {s t : Fs} (h : s.Wf) (hsb : t.sb = s.sb)
    (hdata : ∀ b, ¬ s.sb.IsMeta b → t.disk b = s.disk b) {j : Nat}
    (htype : (t.view j).type = (s.view j).type) (hsize : (t.view j).size = (s.view j).size)
    (haddrs : (t.view j).addrs = (s.view j).addrs) : SameFile s t j := by
  have hnode : ∀ (l : Fin NADDRS) (js : List Nat), blockShape.Path (j, l) js →
      t.forest.node (j, l) js = s.forest.node (j, l) js := by
    intro l js hp
    refine Forest.node_congr (root_congr hsb fun _ => ⟨htype, congrFun haddrs l⟩) (fun js' m hp' hne => ?_) hp
    rw [forest_child, forest_child, hdata _ (h.owned hp'.init hne).2.1]
  have haddr : t.blockAddr j = s.blockAddr j := by
    funext bn
    by_cases hbn : bn < MAXFILE
    · rw [blockAddr_of_lt hbn, blockAddr_of_lt hbn, hnode _ _ (blockPath_path hbn j)]
    · simp [Fs.blockAddr, hbn]
  refine ⟨htype, hsize, haddr, funext fun p => ?_⟩
  unfold Fs.byte Fs.block
  rw [haddr]
  split
  · rfl
  · next hne => rw [hdata _ (h.blockAddr_owned hne).2.1]

theorem SameFile.of_view_eq {s t : Fs} {j : Nat} (hview : t.view j = s.view j) (h : s.Wf)
    (hsb : t.sb = s.sb) (hdata : ∀ b, ¬ s.sb.IsMeta b → t.disk b = s.disk b) : SameFile s t j :=
  .of_view h hsb hdata (by rw [hview]) (by rw [hview]) (by rw [hview])

theorem Same.sameFile {s t : Fs} (h : Same s t) (j : Nat) : SameFile s t j :=
  ⟨by rw [h.view], by rw [h.view], by rw [h.blockAddr], by rw [h.byte]⟩

end Fs

end Xv6
