-- SUMMARY: itrunc gives back exactly the blocks of its file and leaves all other files alone.
import Xv6.FileSystem.InodeRuns

/-! # Discarding a file

What `Truncated` and the last `iupdate` come to for the disk and the inode cache, and
when the log has room for it. `log_write` looks for room even for a block that is in the
log already.
-/

namespace Xv6

open Prog

/-! ## The empty file -/

namespace Fs

/-- From `s` to `t` the file with number `i`, which `ip` points to, becomes empty. -/
structure Emptied (s t : Fs) (ip : InodePtr) (i : Nat) : Prop where
  sb : t.sb = s.sb
  /-- A block is marked if it was before and does not belong to the file. -/
  used : ∀ b < s.sb.size, t.used b = true ↔ s.used b = true ∧ ¬ s.Hangs i NADDRS b
  cached : t.icache ip = { s.icache ip with addrs := fun _ => 0, size := 0 }
  stored : t.dinode i = { (s.icache ip).toDinode with addrs := fun _ => 0, size := 0 }
  icache : ∀ jp, jp ≠ ip → t.icache jp = s.icache jp
  dinode : ∀ j < s.sb.ninodes, j ≠ i → t.dinode j = s.dinode j
  data : ∀ b, ¬ s.sb.IsMeta b → t.disk b = s.disk b

/-- The blocks that `itrunc` of file `i` writes to the log: those of the free map for its
    blocks, and the one with the inode. -/
def Logged (s : Fs) (i x : Nat) : Prop := (∃ b, s.Hangs i NADDRS b ∧ x = s.sb.BBLOCK b) ∨ x = s.sb.IBLOCK i

theorem Truncated.emptied {s t : Fs} {ip : InodePtr} {i : Nat} (h : Truncated s t ip i NADDRS) (hwf : s.Wf)
    (hip : s.Caches ip i) : s.Emptied (t.resize ip 0) ip i := by
  have hi : i < s.sb.ninodes := hip.2.2 ▸ hwf.cacheRange ip hip.1
  have hcut : (s.icache ip).cut NADDRS = { s.icache ip with addrs := fun _ => 0 } := by
    unfold Inode.cut
    simp only [Fin.is_lt, if_true]
  have hentry : (t.resize ip 0).icache ip = { s.icache ip with addrs := fun _ => 0, size := 0 } := by
    unfold resize
    rw [flush_icache, setInode_icache_same, h.icache_same, hcut]
    rfl
  have hinum : ((t.setInode ip { t.icache ip with size := UInt32.ofNat 0 }).icache ip).inum = i := by
    rw [setInode_icache_same, h.icache_same]
    exact hip.2.2
  -- Only the block with the inode is written after the blocks have been freed.
  have hdisk : ∀ b, b ≠ s.sb.IBLOCK i → (t.resize ip 0).disk b = t.disk b := by
    intro b hb
    unfold resize
    rw [flush_disk_ne, setInode_disk]
    rwa [hinum, setInode_sb, h.sb]
  have hdinode : ∀ j, (t.resize ip 0).dinode j =
      if j = i then { (s.icache ip).toDinode with addrs := fun _ => 0, size := 0 } else t.dinode j := by
    intro j
    unfold resize at hentry ⊢
    rw [flush_icache] at hentry
    rw [flush_dinode, hinum, hentry]
    rfl
  refine
    { sb := h.sb, used := fun b hb => ?_, cached := hentry, stored := by rw [hdinode, if_pos rfl]
      icache := fun jp hjp => ?_, dinode := fun j hj hne => ?_, data := fun b hb => ?_ }
  · rw [← h.used b hb]
    unfold Fs.used
    have hsb : (t.resize ip 0).sb = t.sb := rfl
    rw [hsb, hdisk]
    rw [h.sb]
    exact (hwf.sbWf.IBLOCK_ne_BBLOCK hi).symm
  · unfold resize
    rw [flush_icache, setInode_icache_ne _ _ hjp, h.icache_ne hjp]
  · rw [hdinode, if_neg hne, h.dinode j hj]
  · rw [hdisk b fun heq => hb (heq ▸ hwf.sbWf.IBLOCK_isMeta hi), h.data b hb]

end Fs

theorem itrunc_empties (s : Fs) (ip : InodePtr) (i : Nat) (hwf : s.Wf) (hip : s.Caches ip i) (hal : s.Allocated i) :
    wp (itrunc ip) (fun _ t => s.Emptied t ip i) (fun e => e = .tooBigTransaction ∨ e = .logWriteOutsideOfTrans) s ∧
    ∀ B : Finset Nat, (∀ x, s.Logged i x → x ∈ B) → s.log.HasRoom B →
      wp (itrunc ip) (fun _ t => s.Emptied t ip i) (fun _ => False) s := by
  refine ⟨?_, fun B hB hroom => ?_⟩
  · have hlog : MayLog (fun e => e = .tooBigTransaction ∨ e = .logWriteOutsideOfTrans) s := ⟨.inl rfl, .inr (.inr rfl)⟩
    exact wp_itrunc hwf hip hal hlog.writeAll rfl (fun _ _ => trivial) fun t ht => ht.emptied hwf hip
  · exact wp_itrunc hwf hip hal (Log.mayWriteAll_hasRoom B) hroom (fun b hb => hB _ (.inl ⟨b, hb, rfl⟩))
      fun t ht => ht.emptied hwf hip

/-- A file gets two blocks, one of them through the indirect block. -/
def sparseFile : List InodeOp :=
  [.beginOp, .iget 1, .ilock 0, .writei 0 numbered 0 5, .writei 0 numbered 6144 5]

/-- Both blocks and the indirect block are freed. There are holes before the second one. -/
theorem itrunc_empties_sparseFile : ∃ s t : Fs, s.Wf ∧ s.Caches 0 1 ∧ s.Allocated 1 ∧
    (s.blockAddr 1 0 = 68 ∧ s.blockAddr 1 9 = 0 ∧ s.blockAddr 1 11 = 0 ∧ s.blockAddr 1 12 = 70) ∧
    (s.used 68 = true ∧ s.used 69 = true ∧ s.used 70 = true) ∧ itrunc 0 s = .ok ((), t) ∧ s.Emptied t 0 1 ∧
    t.used 68 = false ∧ t.used 69 = false ∧ t.used 70 = false := by
  have hplay : (InodeOp.play sparseFile (booted emptyFile)).any (fun s => s.Loaded 0 ∧ (s.icache 0).inum = 1 ∧
      (s.blockAddr 1 0 = 68 ∧ s.blockAddr 1 9 = 0 ∧ s.blockAddr 1 11 = 0 ∧ s.blockAddr 1 12 = 70) ∧
      (s.used 68 = true ∧ s.used 69 = true ∧ s.used 70 = true) ∧
      (itrunc 0).returns s (fun _ t => !t.used 68 && !t.used 69 && !t.used 70) = true) = true := by decide +kernel
  have hstart := booted_start
  generalize booted emptyFile = s₀ at *
  obtain ⟨s, hs, htest⟩ := (Option.any_eq_true _ _).mp hplay
  obtain ⟨hip, hinum, haddrs, hused, htrunc⟩ := of_decide_eq_true htest
  have hinv := (Fs.Reaches.of_play .refl hs).inv hstart.inv
  obtain ⟨⟨⟩, t, hrun, hfreed⟩ := exists_of_returns htrunc
  simp only [Bool.and_eq_true, Bool.not_eq_true'] at hfreed
  have hc : s.Caches 0 1 := hinum ▸ hip.caches
  exact ⟨s, t, hinv.toWf, hc, hinv.allocated hc, haddrs, hused, hrun,
    (itrunc_empties s 0 1 hinv.toWf hc (hinv.allocated hc)).1.of_run hrun, hfreed.1.1, hfreed.1.2, hfreed.2⟩

end Xv6
