-- SUMMARY: The rules of iupdate, readi and writei.
import Xv6.FileSystem.Contents

/-! # Reading and writing inodes

`Fs.flush` is the state after `iupdate`: the disk copy of one inode is replaced,
and since that inode is cached nothing changes in anyone's view. `wp_readi` and
`wp_writei` describe the two calls in terms of the byte array and the size of
the file.
-/

namespace Xv6

open Prog

namespace Fs

/-! ## Copying an inode to disk -/

/-- Replace the disk copy of inode `i` and log its block. -/
def putDinode (s : Fs) (i : Nat) (d : Dinode) : Fs :=
  (s.setBlock (s.sb.IBLOCK i) (Dinode.put (s.disk (s.sb.IBLOCK i)) (i % IPB) d)).logged (s.sb.IBLOCK i)

theorem putDinode_disk_ne (s : Fs) {i b : Nat} (d : Dinode) (hb : b ≠ s.sb.IBLOCK i) :
    (s.putDinode i d).disk b = s.disk b :=
  setBlock_disk_ne s _ hb

theorem putDinode_dinode (s : Fs) (i : Nat) (d : Dinode) (j : Nat) :
    (s.putDinode i d).dinode j = if j = i then d else s.dinode j := by
  have hsb : (s.putDinode i d).sb = s.sb := rfl
  unfold dinode
  by_cases hblk : s.sb.IBLOCK j = s.sb.IBLOCK i
  · have hdisk : (s.putDinode i d).disk (s.sb.IBLOCK j) =
        Dinode.put (s.disk (s.sb.IBLOCK j)) (i % IPB) d := by
      rw [hblk]
      exact setBlock_disk_same s _ _
    rw [hsb, hdisk]
    split
    · next hj => rw [hj, Dinode.get_put_same]
    · next hj =>
      refine Dinode.get_put_ne _ _ fun hmod => hj ?_
      simp only [Superblock.IBLOCK, IPB, BSIZE] at *
      omega
  · rw [hsb, putDinode_disk_ne s d hblk, if_neg]
    rintro rfl
    exact hblk rfl

theorem putDinode_data {s : Fs} (h : s.sb.Wf) {i : Nat} (hi : i < s.sb.ninodes) (d : Dinode) {b : Nat}
    (hb : ¬ s.sb.IsMeta b) : (s.putDinode i d).disk b = s.disk b :=
  putDinode_disk_ne s d fun heq => hb (heq ▸ h.IBLOCK_isMeta hi)

theorem putDinode_used {s : Fs} (h : s.sb.Wf) {i : Nat} (hi : i < s.sb.ninodes) (d : Dinode) (b : Nat) :
    (s.putDinode i d).used b = s.used b :=
  congrArg (·.bit (b % BPB)) (putDinode_disk_ne s d (h.IBLOCK_ne_BBLOCK hi).symm)

/-- The state after `iupdate(ip)`. -/
def flush (s : Fs) (ip : InodePtr) : Fs := s.putDinode (s.icache ip).inum (s.icache ip).toDinode

@[simp] theorem flush_sb (s : Fs) (ip : InodePtr) : (s.flush ip).sb = s.sb := rfl
@[simp] theorem flush_icache (s : Fs) (ip : InodePtr) : (s.flush ip).icache = s.icache := rfl
@[simp] theorem flush_devsw (s : Fs) (ip : InodePtr) : (s.flush ip).devsw = s.devsw := rfl
@[simp] theorem flush_outstanding (s : Fs) (ip : InodePtr) :
    (s.flush ip).log.outstanding = s.log.outstanding := rfl
@[simp] theorem flush_trace (s : Fs) (ip : InodePtr) :
    (s.flush ip).log.trace = s.sb.IBLOCK (s.icache ip).inum :: s.log.trace := rfl

theorem flush_disk_ne (s : Fs) (ip : InodePtr) {b : Nat}
    (hb : b ≠ s.sb.IBLOCK (s.icache ip).inum) : (s.flush ip).disk b = s.disk b :=
  putDinode_disk_ne s _ hb

theorem flush_dinode (s : Fs) (ip : InodePtr) (j : Nat) : (s.flush ip).dinode j =
    if j = (s.icache ip).inum then (s.icache ip).toDinode else s.dinode j :=
  putDinode_dinode s _ _ j

section Flush

variable {s : Fs} {ip : InodePtr} {i : Nat}

theorem flush_view (hinj : s.CacheInj) (hip : s.Caches ip i) (j : Nat) :
    (s.flush ip).view j = s.view j := by
  by_cases hj : j = i
  · subst hj
    have hip' : (s.flush ip).Caches ip j := hip
    have hinj' : (s.flush ip).CacheInj := hinj
    rw [view_of_caches hinj hip, view_of_caches hinj' hip', flush_icache]
  · refine view_congr ?_ rfl
    rw [flush_dinode, if_neg]
    rw [hip.2.2]
    exact hj

theorem flush_disk_data (h : s.Wf) (hip : s.Caches ip i) {b : Nat} (hb : ¬ s.sb.IsMeta b) :
    (s.flush ip).disk b = s.disk b :=
  putDinode_data h.sbWf (h.cacheRange ip hip.1) _ hb

theorem flush_used (h : s.Wf) (hip : s.Caches ip i) (b : Nat) : (s.flush ip).used b = s.used b :=
  putDinode_used h.sbWf (h.cacheRange ip hip.1) _ b

theorem flush_node (h : s.Wf) (hip : s.Caches ip i) {k : Nat × Fin NADDRS} {js : List Nat}
    (hp : blockShape.Path k js) : (s.flush ip).forest.node k js = s.forest.node k js := by
  refine Forest.node_congr ?_ (fun js' j hp' hne' => ?_) hp
  · refine root_congr rfl fun _ => ?_
    rw [flush_view h.cacheInj hip]
    exact ⟨rfl, rfl⟩
  · exact congrArg (·.word j) (flush_disk_data h hip (h.owned hp'.init hne').2.1)

theorem flush_wf (h : s.Wf) (hip : s.Caches ip i) : (s.flush ip).Wf := by
  refine h.of_subtree rfl (flush_disk_ne s ip (h.sbWf.SBLOCK_ne_IBLOCK _))
    (fun b _ hb _ => (flush_used h hip b).trans hb) (fun _ _ hp _ => flush_node h hip hp)
    h.cacheInj h.cacheRange fun j hj => ?_
  unfold Allocated at hj
  rw [flush_view h.cacheInj hip] at hj ⊢
  exact h.sizeLe j hj

end Flush

/-- Contents only depend on the nodes and on what is in the data area. -/
theorem block_congr {s s' : Fs} (h : s.Wf)
    (hnode : ∀ ⦃k js⦄, blockShape.Path k js → s'.forest.node k js = s.forest.node k js)
    (hdisk : ∀ b, ¬ s.sb.IsMeta b → s'.disk b = s.disk b) (i bn : Nat) :
    s'.block i bn = s.block i bn := by
  have haddr : s'.blockAddr i bn = s.blockAddr i bn := by
    by_cases hbn : bn < MAXFILE
    · rw [blockAddr_of_lt hbn, blockAddr_of_lt hbn, hnode (blockPath_path hbn i)]
    · simp [blockAddr, hbn]
  unfold block
  rw [haddr]
  split
  · rfl
  · next hne => exact hdisk _ (h.blockAddr_owned hne).2.1

/-! ## Assigning to a cached inode -/

section SetInode

variable {s : Fs} {ip : InodePtr} {i : Nat}

/-- An assignment that keeps the type and the block pointers keeps all trees. -/
theorem setInode_node (h : s.Wf) (x : Inode) (href : 0 < x.ref ↔ 0 < (s.icache ip).ref)
    (hvalid : x.valid = (s.icache ip).valid) (hinum : x.inum = (s.icache ip).inum)
    (htype : x.type = (s.icache ip).type) (haddrs : x.addrs = (s.icache ip).addrs)
    {k : Nat × Fin NADDRS} {js : List Nat} (hp : blockShape.Path k js) :
    (s.setInode ip x).forest.node k js = s.forest.node k js := by
  refine Forest.node_congr ?_ (fun _ _ _ _ => ?_) hp
  · refine root_congr rfl fun _ => ?_
    rw [(view_setInode h.cacheInj ip x href hvalid hinum).2]
    split
    · next hc =>
      rw [view_of_caches h.cacheInj hc]
      exact ⟨htype, congrFun haddrs _⟩
    · exact ⟨rfl, rfl⟩
  · rfl

theorem setInode_wf (h : s.Wf) (x : Inode) (href : 0 < x.ref ↔ 0 < (s.icache ip).ref)
    (hvalid : x.valid = (s.icache ip).valid) (hinum : x.inum = (s.icache ip).inum)
    (htype : x.type = (s.icache ip).type) (haddrs : x.addrs = (s.icache ip).addrs)
    (hsize : ∀ i, s.Caches ip i → x.size.toNat ≤ MAXFILE * BSIZE) : (s.setInode ip x).Wf := by
  obtain ⟨hinj, hview⟩ := view_setInode h.cacheInj ip x href hvalid hinum
  refine h.of_subtree rfl rfl (fun _ _ hb _ => hb)
    (fun _ _ hp _ => setInode_node h x href hvalid hinum htype haddrs hp) hinj ?_ fun j hj => ?_
  · intro jp hjp
    by_cases heq : jp = ip
    · subst heq
      rw [setInode_icache_same, href] at hjp
      rw [setInode_icache_same, hinum]
      exact h.cacheRange jp hjp
    · rw [setInode_icache_ne _ _ heq] at hjp ⊢
      exact h.cacheRange jp hjp
  · unfold Allocated at hj
    rw [hview] at hj ⊢
    split at hj
    · next hc =>
      rw [if_pos hc]
      exact hsize j hc
    · next hc =>
      rw [if_neg hc]
      exact h.sizeLe j hj

end SetInode

/-! ## Growing a file -/

/-- `ip->size = z; iupdate(ip)`. -/
def resize (s : Fs) (ip : InodePtr) (z : Nat) : Fs :=
  (s.setInode ip { s.icache ip with size := UInt32.ofNat z }).flush ip

section Resize

variable {s : Fs} {ip : InodePtr} {i z : Nat}

private theorem setSize_view (h : s.Wf) (hip : s.Caches ip i) (j : Nat) :
    (s.setInode ip { s.icache ip with size := UInt32.ofNat z }).view j =
      if j = i then { s.view i with size := UInt32.ofNat z } else s.view j := by
  rw [(view_setInode h.cacheInj ip { s.icache ip with size := UInt32.ofNat z } Iff.rfl rfl rfl).2]
  by_cases hj : j = i
  · subst hj
    rw [if_pos hip, if_pos rfl, view_of_caches h.cacheInj hip]
  · rw [if_neg hj, if_neg]
    exact fun hc => hj (hc.2.2.symm.trans hip.2.2)

theorem setSize_caches (hip : s.Caches ip i) :
    (s.setInode ip { s.icache ip with size := UInt32.ofNat z }).Caches ip i := by
  unfold Caches at *
  rw [setInode_icache_same]
  exact hip

theorem setSize_wf (h : s.Wf) (hz : z ≤ MAXFILE * BSIZE) :
    (s.setInode ip { s.icache ip with size := UInt32.ofNat z }).Wf := by
  refine setInode_wf h { s.icache ip with size := UInt32.ofNat z } Iff.rfl rfl rfl rfl rfl fun _ _ => ?_
  rw [UInt32.toNat_ofNat']
  exact (Nat.mod_le _ _).trans hz

theorem resize_view (h : s.Wf) (hip : s.Caches ip i) (j : Nat) : (s.resize ip z).view j =
    if j = i then { s.view i with size := UInt32.ofNat z } else s.view j := by
  have hinj := (view_setInode h.cacheInj ip { s.icache ip with size := UInt32.ofNat z } Iff.rfl rfl rfl).1
  unfold resize
  rw [flush_view hinj (setSize_caches hip), setSize_view h hip]

theorem resize_wf (h : s.Wf) (hip : s.Caches ip i) (hz : z ≤ MAXFILE * BSIZE) : (s.resize ip z).Wf :=
  flush_wf (setSize_wf h hz) (setSize_caches hip)

theorem resize_node (h : s.Wf) (hip : s.Caches ip i) (hz : z ≤ MAXFILE * BSIZE)
    {k : Nat × Fin NADDRS} {js : List Nat} (hp : blockShape.Path k js) :
    (s.resize ip z).forest.node k js = s.forest.node k js := by
  unfold resize
  rw [flush_node (setSize_wf h hz) (setSize_caches hip) hp,
    setInode_node h { s.icache ip with size := UInt32.ofNat z } Iff.rfl rfl rfl rfl rfl hp]

theorem resize_blockAddr (h : s.Wf) (hip : s.Caches ip i) (hz : z ≤ MAXFILE * BSIZE) :
    (s.resize ip z).blockAddr = s.blockAddr := by
  funext j bm
  by_cases hlt : bm < MAXFILE
  · rw [blockAddr_of_lt hlt, blockAddr_of_lt hlt, resize_node h hip hz (blockPath_path hlt j)]
  · simp [blockAddr, hlt]

theorem resize_byte (h : s.Wf) (hip : s.Caches ip i) (hz : z ≤ MAXFILE * BSIZE) (j : Nat) :
    (s.resize ip z).byte j = s.byte j := by
  funext p
  unfold byte
  rw [block_congr h (fun _ _ hp => resize_node h hip hz hp) fun b hb => ?_]
  exact flush_disk_data (setSize_wf h hz) (setSize_caches hip) hb

end Resize

end Fs

/-! ## Rules -/

section Rules

variable {s : Fs} {E : Stop → Prop} {I : Fs → Prop} {ip : InodePtr} {i : Nat}

theorem wp_iupdate {Q : Unit → Fs → Prop} (hwf : s.sb.Wf)
    (hinum : (s.icache ip).inum < s.sb.ninodes) (hlog : MayWrite E s.log)
    (h : Q () (s.flush ip)) : wp (iupdate ip) Q E s := by
  have hblk := hwf.isMeta_lt_FSSIZE (hwf.IBLOCK_isMeta hinum)
  simp only [iupdate, wp_bind, wp_get, wp_deref, wp_bread hblk, wp_bmodify]
  exact wp_logWrite hlog fun _ => h

/-- A device does not touch the file system. -/
theorem wp_readi_dev {off n : UInt32} {Q : Int × List UInt8 → Fs → Prop}
    (hdev : (s.icache ip).type = T_DEV) (h : ∀ r, Q r s) : wp (readi ip off n) Q E s := by
  simp only [readi, wp_bind, wp_get, wp_deref, if_pos hdev]
  split
  · exact h _
  · split <;> exact h _

theorem wp_writei_dev {src : Bytes} {off n : UInt32} {Q : Int → Fs → Prop}
    (hdev : (s.icache ip).type = T_DEV) (h : ∀ r, Q r s) : wp (writei ip src off n) Q E s := by
  simp only [writei, wp_bind, wp_get, wp_deref, if_pos hdev]
  split
  · exact h _
  · split <;> exact h _

/-- What a read of `n` bytes at `off` gives from a file of `size` bytes. -/
def readLen (size off n : Nat) : Nat := min n (size - off)

/-- `readi` refuses the call or runs its loop. -/
theorem wp_readi_iff {off n : UInt32} {Q : Int × List UInt8 → Fs → Prop}
    (hdev : (s.icache ip).type ≠ T_DEV) :
    wp (readi ip off n) Q E s ↔
      if (s.icache ip).size.toNat < off.toNat ∨ 2 ^ 32 ≤ off.toNat + n.toNat then Q (-1, []) s
      else wp (readLoop ip (readLen (s.icache ip).size.toNat off.toNat n.toNat)
          (readLen (s.icache ip).size.toNat off.toNat n.toNat) 0 off.toNat)
        (fun bs t => Q ((readLen (s.icache ip).size.toNat off.toNat n.toNat : Nat), bs) t) E s := by
  have hoff := off.toNat_lt
  have hn := n.toNat_lt
  have hfail : (off > (s.icache ip).size ∨ off + n < off) ↔
      ((s.icache ip).size.toNat < off.toNat ∨ 2 ^ 32 ≤ off.toNat + n.toNat) := by
    rw [gt_iff_lt, UInt32.lt_iff_toNat_lt, UInt32.lt_iff_toNat_lt, UInt32.toNat_add]
    omega
  simp only [readi, wp_bind, wp_get, wp_deref, if_neg hdev]
  by_cases hbad : off > (s.icache ip).size ∨ off + n < off
  · rw [if_pos hbad, if_pos (hfail.mp hbad), wp_pure]
  · rw [if_neg hbad, if_neg (hbad ∘ hfail.mpr)]
    rw [hfail, not_or, not_lt, not_le] at hbad
    have hlen : (if off + n > (s.icache ip).size then (s.icache ip).size - off else n).toNat =
        readLen (s.icache ip).size.toNat off.toNat n.toNat := by
      have hadd : (off + n).toNat = off.toNat + n.toNat := by
        rw [UInt32.toNat_add, Nat.mod_eq_of_lt hbad.2]
      unfold readLen
      split
      · next h =>
        have := UInt32.lt_iff_toNat_lt.mp h
        rw [UInt32.toNat_sub_of_le _ _ (UInt32.le_iff_toNat_le.mpr hbad.1)]
        omega
      · next h =>
        have := UInt32.le_iff_toNat_le.mp (UInt32.not_lt.mp h)
        omega
    simp only [wp_bind, wp_pure, hlen]

/-- `readi` returns the bytes of the file, and only fills holes of its tree. -/
theorem wp_readi {off n : UInt32} {Q : Int × List UInt8 → Fs → Prop}
    (hout : E .ballocOutOfBlocks) (hwf : s.Wf) (hip : s.Caches ip i) (hal : s.Allocated i)
    (hdev : (s.icache ip).type ≠ T_DEV) (hlog : MayLog E s) (hI : I s)
    (hrange : RangeStep I ip i off.toNat (readLen (s.view i).size.toNat off.toNat n.toNat))
    (hbad : (s.view i).size.toNat < off.toNat ∨ 2 ^ 32 ≤ off.toNat + n.toNat → Q (-1, []) s)
    (hok : ∀ t, off.toNat ≤ (s.view i).size.toNat → off.toNat + n.toNat < 2 ^ 32 →
      I t → t.Wf → Fs.Grow s t →
      Q ((readLen (s.view i).size.toNat off.toNat n.toNat : Nat),
        (s.byte i).slice off.toNat (readLen (s.view i).size.toNat off.toNat n.toNat)) t) :
    wp (readi ip off n) Q E s := by
  have hsize := hwf.sizeLe i hal
  rw [Fs.view_of_caches hwf.cacheInj hip] at hsize hbad hok hrange
  rw [wp_readi_iff hdev]
  split
  · next hfail => exact hbad hfail
  · next hfail =>
    rw [not_or, not_lt, not_le] at hfail
    have hmax : off.toNat + readLen (s.icache ip).size.toNat off.toNat n.toNat ≤ MAXFILE * BSIZE := by
      unfold readLen
      omega
    have hkeeps := hrange.keeps hout hmax hlog
    rw [← Nat.sub_zero (readLen _ _ _)] at hkeeps
    refine (wp_readLoop _ _ 0 off.toNat s (Nat.sub_le _ _) hkeeps hwf hip hal ⟨hI, rfl⟩).post ?_
    rintro bs t ⟨rfl, hIt, hwft, g⟩
    exact hok t hfail.1 hfail.2 hIt.1 hwft g

/-- The state `writei` returns in, once its loop has reached `t`. -/
def writeEnd (t : Fs) (ip : InodePtr) (off n : Nat) : Fs :=
  if 0 < n ∧ (t.icache ip).size.toNat < off + n then t.resize ip (off + n) else t

section WriteEnd

variable {t : Fs} {off n : Nat}

theorem writeEnd_wf (h : t.Wf) (hip : t.Caches ip i) (hle : off + n ≤ MAXFILE * BSIZE) :
    (writeEnd t ip off n).Wf := by
  unfold writeEnd
  split
  · exact Fs.resize_wf h hip hle
  · exact h

theorem writeEnd_byte (h : t.Wf) (hip : t.Caches ip i) (hle : off + n ≤ MAXFILE * BSIZE) (j : Nat) :
    (writeEnd t ip off n).byte j = t.byte j := by
  unfold writeEnd
  split
  · exact Fs.resize_byte h hip hle j
  · rfl

theorem writeEnd_blockAddr (h : t.Wf) (hip : t.Caches ip i) (hle : off + n ≤ MAXFILE * BSIZE) :
    (writeEnd t ip off n).blockAddr = t.blockAddr := by
  unfold writeEnd
  split
  · exact Fs.resize_blockAddr h hip hle
  · rfl

theorem writeEnd_node (h : t.Wf) (hip : t.Caches ip i) (hle : off + n ≤ MAXFILE * BSIZE)
    {k : Nat × Fin NADDRS} {js : List Nat} (hp : blockShape.Path k js) :
    (writeEnd t ip off n).forest.node k js = t.forest.node k js := by
  unfold writeEnd
  split
  · exact Fs.resize_node h hip hle hp
  · rfl

theorem writeEnd_type (h : t.Wf) (hip : t.Caches ip i) (j : Nat) :
    ((writeEnd t ip off n).view j).type = (t.view j).type := by
  unfold writeEnd
  split
  · rw [Fs.resize_view h hip]
    split
    · next hj => rw [hj]
    · rfl
  · rfl

theorem writeEnd_size (h : t.Wf) (hip : t.Caches ip i) (hle : off + n ≤ MAXFILE * BSIZE) (j : Nat) :
    ((writeEnd t ip off n).view j).size.toNat =
      if j = i ∧ 0 < n then max (t.view i).size.toNat (off + n) else (t.view j).size.toNat := by
  have hmax : MAXFILE * BSIZE < 2 ^ 32 := by decide
  have hz : (UInt32.ofNat (off + n)).toNat = off + n := by
    rw [UInt32.toNat_ofNat', Nat.mod_eq_of_lt (hle.trans_lt hmax)]
  unfold writeEnd
  rw [← Fs.view_of_caches h.cacheInj hip]
  split
  · next hgrow =>
    rw [Fs.resize_view h hip]
    by_cases hj : j = i
    · rw [if_pos hj, if_pos ⟨hj, hgrow.1⟩, hz]
      omega
    · rw [if_neg hj, if_neg fun hc => hj hc.1]
  · next hgrow =>
    split
    · next hj =>
      rw [hj.1]
      omega
    · rfl

end WriteEnd

/-- `writei` fails up front or writes all bytes. -/
theorem wp_writei_keeps {src : Bytes} {off n : UInt32} {Q : Int → Fs → Prop}
    (hwf : s.Wf) (hip : s.Caches ip i) (hal : s.Allocated i)
    (hdev : (s.icache ip).type ≠ T_DEV) (hwrite : ∀ t, I t → MayWrite E t.log) (hI : I s)
    (hrange : off.toNat + n.toNat ≤ MAXFILE * BSIZE → RangeKeeps E I ip i off.toNat n.toNat)
    (hleaf : off.toNat + n.toNat ≤ MAXFILE * BSIZE → LeafStep I i off.toNat n.toNat)
    (hbad : MAXFILE * BSIZE < off.toNat + n.toNat → Q (-1) s)
    (hok : ∀ t, off.toNat + n.toNat ≤ MAXFILE * BSIZE → I t → t.Wf →
      Fs.Written s t i off.toNat n.toNat src →
      Q n.toNat (writeEnd t ip off.toNat n.toNat)) :
    wp (writei ip src off n) Q E s := by
  have hmax : MAXFILE * BSIZE < 2 ^ 32 := by decide
  have hoff := off.toNat_lt
  have hn := n.toNat_lt
  simp only [writei, wp_bind, wp_get, wp_deref, if_neg hdev]
  by_cases hwrap : off + n < off
  · rw [if_pos hwrap]
    have := UInt32.lt_iff_toNat_lt.mp hwrap
    rw [UInt32.toNat_add] at this
    exact hbad (by omega)
  rw [if_neg hwrap]
  have hsum : (off + n).toNat = off.toNat + n.toNat := by
    have := UInt32.le_iff_toNat_le.mp (UInt32.not_lt.mp hwrap)
    rw [UInt32.toNat_add] at this ⊢
    omega
  rw [hsum]
  by_cases hbig : off.toNat + n.toNat > MAXFILE * BSIZE
  · rw [if_pos hbig]
    exact hbad hbig
  have hle : off.toNat + n.toNat ≤ MAXFILE * BSIZE := not_lt.mp hbig
  rw [if_neg hbig]
  simp only [wp_bind]
  refine (wp_writeLoop hwrite src _ _ 0 off.toNat s (by simp) (by simpa using hrange hle)
    (by simpa using hleaf hle) hwf hip hal hI).post ?_
  rintro r t ⟨rfl, hIt, hwft, hw⟩
  simp only [Nat.sub_zero, Nat.zero_add] at hw ⊢
  have hres := hok t hle hIt hwft hw
  unfold writeEnd at hres
  have hpos : n > 0 ↔ 0 < n.toNat := UInt32.lt_iff_toNat_lt
  have hipt := hw.caches hip
  simp only [wp_deref, hpos, gt_iff_lt]
  split
  · next hgrow =>
    rw [if_pos hgrow] at hres
    simp only [wp_bind, wp_imodify, wp_pure]
    refine wp_iupdate hwft.sbWf ?_ (hwrite t hIt) ?_
    · rw [Fs.setInode_icache_same]
      exact hwft.cacheRange ip hipt.1
    · exact hres
  · next hgrow =>
    rw [if_neg hgrow] at hres
    exact hres

theorem wp_writei {src : Bytes} {off n : UInt32} {Q : Int → Fs → Prop}
    (hout : E .ballocOutOfBlocks) (hwf : s.Wf) (hip : s.Caches ip i) (hal : s.Allocated i)
    (hdev : (s.icache ip).type ≠ T_DEV) (hlog : MayLog E s) (hI : I s)
    (hrange : off.toNat + n.toNat ≤ MAXFILE * BSIZE → RangeStep I ip i off.toNat n.toNat)
    (hleaf : off.toNat + n.toNat ≤ MAXFILE * BSIZE → LeafStep I i off.toNat n.toNat)
    (hbad : MAXFILE * BSIZE < off.toNat + n.toNat → Q (-1) s)
    (hok : ∀ t, off.toNat + n.toNat ≤ MAXFILE * BSIZE → I t → t.Wf →
      Fs.Written s t i off.toNat n.toNat src →
      Q n.toNat (writeEnd t ip off.toNat n.toNat)) :
    wp (writei ip src off n) Q E s :=
  wp_writei_keeps (I := fun t => I t ∧ t.log.outstanding = s.log.outstanding) hwf hip hal hdev
    (fun _ ht => (hlog.congr ht.2).write) ⟨hI, rfl⟩ (fun hle => (hrange hle).keeps hout hle hlog)
    (fun hle t bn c hlo hhi hwft ht hne => ⟨hleaf hle t bn c hlo hhi hwft ht.1 hne, ht.2⟩) hbad
    fun _ hle ht => hok _ hle ht.1

end Rules

end Xv6
