-- SUMMARY: Rules for one transaction of a file write and for reads through an open file.
import Xv6.FileSystem.OpenFile
import Xv6.FileSystem.Writes

/-! # Calls through an open file

Taking and releasing an inode's lock, and starting and ending a transaction, change
no file: states before and after show the same trees (`Fs.Same`). The rules below
put `writei` and `readi` into the brackets that `file.c` has around them.
-/

namespace Xv6

open Prog

/-! ## Brackets -/

/-- The state after `begin_op(); ilock(ip)`. -/
def Fs.enter (s : Fs) (ip : InodePtr) : Fs := (s.setLog s.log.start).lockInode ip

/-- The state after `iunlock(ip); end_op()`. -/
def Fs.leave (s : Fs) (ip : InodePtr) : Fs := (s.unlockInode ip).setLog s.log.finish

section Brackets

variable {s : Fs} {ip : InodePtr}

theorem Fs.Inv.enter (h : s.Inv) (hip : s.Held ip) (htyped : s.Typed ip) : (s.enter ip).Inv :=
  (h.setLog s.log.start).lockInode hip htyped

theorem Fs.Inv.leave (h : s.Inv) (ip : InodePtr) : (s.leave ip).Inv := h.unlockInode.setLog _

theorem Fs.same_enter (h : s.Inv) (hip : s.Held ip) : Fs.Same s (s.enter ip) :=
  (Fs.Same.setLog s s.log.start).trans (.lockInode (h.setLog s.log.start) hip)

theorem Fs.same_leave (h : s.Inv) (ip : InodePtr) : Fs.Same s (s.leave ip) :=
  (Fs.Same.unlockInode h ip).trans (.setLog _ _)

theorem Fs.enter_caches (hip : s.Held ip) : (s.enter ip).Caches ip (s.icache ip).inum := by
  unfold Fs.Caches Fs.enter Fs.lockInode
  rw [Fs.setInode_icache_same]
  exact ⟨hip, rfl, rfl⟩

end Brackets

/-- The ways a bracketed call may stop that are nobody's mistake. -/
structure MayStop (E : Stop → Prop) : Prop where
  full : E .tooBigTransaction
  outOfBlocks : E .ballocOutOfBlocks
  asleep : E .asleep
  noType : E .ilockNoType
  unlocked : E .iunlock

section Rules

variable {s : Fs} {E : Stop → Prop} {ip : InodePtr}

/-- One transaction of `filewrite` or `pfilewrite`. -/
theorem wp_writeChunk {src : Bytes} {off : UInt32} {n : Nat} {Q : Int → Fs → Prop}
    (hE : MayStop E) (h : s.Inv) (hip : s.Held ip) (hn : n < 2 ^ 32)
    (hdev : s.Typed ip → (s.view (s.icache ip).inum).type = T_DEV → ∀ r, Q r ((s.enter ip).leave ip))
    (hbad : s.Typed ip → MAXFILE * BSIZE < off.toNat + n → Q (-1) ((s.enter ip).leave ip))
    (hok : s.Typed ip → (s.view (s.icache ip).inum).type ≠ T_DEV → off.toNat + n ≤ MAXFILE * BSIZE → ∀ w,
      Fs.Wrote (s.enter ip) w ip (s.icache ip).inum off.toNat n src → Q n (w.leave ip)) :
    wp (writeChunk ip src off n) Q E s := by
  have hn' : (UInt32.ofNat n).toNat = n := by
    rw [UInt32.toNat_ofNat', Nat.mod_eq_of_lt hn]
  simp only [writeChunk, wp_bind]
  refine wp_beginOp hE.asleep ?_
  refine wp_ilock h.sbWf hip (h.cacheRange ip hip) (fun _ => hE.asleep) (fun _ => hE.noType) fun htyped => ?_
  have hinv := h.enter hip htyped
  have hsame := Fs.same_enter h hip
  have hc := Fs.enter_caches hip
  have hview : ((s.enter ip).icache ip).type = (s.view (s.icache ip).inum).type := by
    rw [← hsame.view, Fs.view_of_caches hinv.cacheInj hc]
  have hend : ∀ (r : Int) (t : Fs), Q r (t.leave ip) →
      wp (iunlock ip) (fun _ u => wp endOp (fun _ v => wp (pure r) Q E v) E u) E t := by
    intro r t hQ
    refine wp_iunlock (fun _ => hE.unlocked) ?_
    rw [wp_endOp, wp_pure]
    exact hQ
  by_cases htype : (s.view (s.icache ip).inum).type = T_DEV
  · exact wp_writei_dev (hview.trans htype) fun r => hend r _ (hdev htyped htype r)
  · refine wp_writei_wrote hE.outOfBlocks hinv hc (fun heq => htype (hview.symm.trans heq))
      ⟨hE.full, .inl (Nat.le_add_left 1 _)⟩ ?_ ?_
    · rw [hn']
      exact fun hbig => hend _ _ (hbad htyped hbig)
    · rw [hn']
      exact fun hle w hw => hend _ _ (hok htyped htype hle w hw)

/-- Locking an inode that nobody has locked. -/
theorem wp_ilock_free {Q : Unit → Fs → Prop} (h : s.Inv) (hip : s.Held ip) (htyped : s.Typed ip)
    (hlocked : (s.icache ip).locked = false) (hQ : Q () (s.lockInode ip)) : wp (ilock ip) Q E s := by
  refine wp_ilock h.sbWf hip (h.cacheRange ip hip) (fun hl => ?_) (absurd htyped) fun _ => hQ
  rw [hlocked] at hl
  cases hl

theorem Fs.lockInode_caches (hip : s.Held ip) : (s.lockInode ip).Caches ip (s.icache ip).inum := by
  unfold Fs.Caches Fs.lockInode
  rw [Fs.setInode_icache_same]
  exact ⟨hip, rfl, rfl⟩

theorem Fs.Same.readReply {t : Fs} (h : Fs.Same s t) : t.readReply = s.readReply := by
  unfold Fs.readReply
  simp only [h.view, h.byte]

/-- `ilock(ip); readi(ip, off, n); iunlock(ip)` of a range without holes. -/
theorem wp_lockedRead_of_mapped (h : s.Inv) (hip : s.Held ip) (htyped : s.Typed ip)
    (hlocked : (s.icache ip).locked = false) (hdev : (s.view (s.icache ip).inum).type ≠ T_DEV)
    {off n : UInt32} (hmap : s.Mapped (s.icache ip).inum off.toNat
      (readLen (s.view (s.icache ip).inum).size.toNat off.toNat n.toNat))
    {Q : Int × List UInt8 → Fs → Prop}
    (hQ : Q (s.readReply (s.icache ip).inum off.toNat n.toNat) ((s.lockInode ip).unlockInode ip)) :
    wp (ilock ip) (fun _ t => wp (readi ip off n) (fun r u => wp (iunlock ip) (fun _ v => Q r v) E u)
      E t) E s := by
  refine wp_ilock_free h hip htyped hlocked ?_
  have hinv := h.lockInode hip htyped
  have hsame := Fs.Same.lockInode h hip
  have hc := Fs.lockInode_caches hip
  rw [wp_readi_of_mapped hinv.toWf hc (hinv.allocated hc), hsame.readReply]
  · refine wp_iunlock (fun hbad => ?_) hQ
    rw [Fs.lockInode, Fs.setInode_icache_same] at hbad
    rcases hbad with hl | href
    · cases hl
    · exact absurd hip (not_lt.mpr (by simpa [Inode.lock] using Int.lt_add_one_iff.mp href))
  · rw [← hsame.view, Fs.view_of_caches hinv.cacheInj hc] at hdev
    exact hdev
  · rw [hsame.view]
    exact hsame.mapped.mpr hmap

/-- The same for a range with a hole, outside of a transaction. -/
theorem wp_lockedRead_of_hole (h : s.Inv) (hip : s.Held ip) (htyped : s.Typed ip)
    (hlocked : (s.icache ip).locked = false) (hdev : (s.view (s.icache ip).inum).type ≠ T_DEV)
    {off n : UInt32} (hoff : off.toNat ≤ (s.view (s.icache ip).inum).size.toNat)
    (hsum : off.toNat + n.toNat < 2 ^ 32)
    (hmap : ¬ s.Mapped (s.icache ip).inum off.toNat
      (readLen (s.view (s.icache ip).inum).size.toNat off.toNat n.toNat))
    (hout : s.log.outstanding = 0) (hE : StopsOutside E) {Q : Int × List UInt8 → Fs → Prop} :
    wp (ilock ip) (fun _ t => wp (readi ip off n) Q E t) E s := by
  refine wp_ilock_free h hip htyped hlocked ?_
  have hinv := h.lockInode hip htyped
  have hsame := Fs.Same.lockInode h hip
  have hc := Fs.lockInode_caches hip
  refine wp_readi_of_hole hinv.toWf hc (hinv.allocated hc) ?_ ?_ hsum ?_ hout hE
  · rw [← hsame.view, Fs.view_of_caches hinv.cacheInj hc] at hdev
    exact hdev
  · rw [hsame.view]
    exact hoff
  · rw [hsame.view, hsame.mapped]
    exact hmap

end Rules

end Xv6
