-- SUMMARY: What a writei leaves: the file, the other files, the inode's two copies, and the logged blocks.
import Xv6.FileSystem.Frames

/-! # After a write

`Fs.Wrote` collects what a `writei` that succeeds does to the whole file system.
`Fs.Dirty` says which blocks it passes to `log_write`: the data blocks of the range,
the nodes it had to allocate with their bits in the free map, and the tables that
point to them.
-/

namespace Xv6

open Prog

namespace Fs

/-! ## Logged blocks -/

/-- The node `q` on the way to a block of `B` of file `i` is not there. -/
def Missing (s : Fs) (i : Nat) (B : Nat → Prop) (q : Fin NADDRS × List Nat) : Prop :=
  (∃ bn, B bn ∧ q.1 = (blockPath bn).1 ∧ q.2 <+: (blockPath bn).2) ∧ s.forest.node (i, q.1) q.2 = 0

/-- The blocks that are logged on the way from `s` to `t`. -/
inductive Dirty (s t : Fs) (i : Nat) (B : Nat → Prop) (x : Nat) : Prop where
  | data (bn : Nat) (hbn : B bn) (hne : t.blockAddr i bn ≠ 0) (hx : x = (t.blockAddr i bn).toNat)
  | node (q : Fin NADDRS × List Nat) (hq : s.Missing i B q) (hne : t.forest.node (i, q.1) q.2 ≠ 0)
      (hx : x = (t.forest.node (i, q.1) q.2).toNat)
  | bitmap (q : Fin NADDRS × List Nat) (hq : s.Missing i B q) (hne : t.forest.node (i, q.1) q.2 ≠ 0)
      (hx : x = s.sb.BBLOCK (t.forest.node (i, q.1) q.2).toNat)
  | table (k : Fin NADDRS) (js : List Nat) (j : Nat) (hq : s.Missing i B (k, js ++ [j]))
      (hne : t.forest.node (i, k) js ≠ 0) (hx : x = (t.forest.node (i, k) js).toNat)

variable {s t u : Fs} {ip : InodePtr} {i : Nat} {B : Nat → Prop}

theorem Missing.path {q : Fin NADDRS × List Nat} (h : s.Missing i B q) (hB : ∀ bn, B bn → bn < MAXFILE) :
    blockShape.Path (i, q.1) q.2 := by
  obtain ⟨⟨bn, hbn, hslot, ls, hls⟩, -⟩ := h
  have hp := blockPath_path (hB bn hbn) i
  rw [← hls, ← hslot] at hp
  exact hp.append_left

/-- A block that is logged stays so when the trees grow. -/
theorem Dirty.extend {x : Nat} (h : Dirty s t i B x) (hB : ∀ bn, B bn → bn < MAXFILE) (g : Extend t u) :
    Dirty s u i B x := by
  cases h with
  | data bn hbn hne hx =>
    have heq := g.blockAddr hne
    exact .data bn hbn (heq ▸ hne) (heq ▸ hx)
  | node q hq hne hx =>
    have heq := g.node _ _ (hq.path hB) hne
    exact .node q hq (heq ▸ hne) (heq ▸ hx)
  | bitmap q hq hne hx =>
    have heq := g.node _ _ (hq.path hB) hne
    exact .bitmap q hq (heq ▸ hne) (heq ▸ hx)
  | table k js j hq hne hx =>
    have heq := g.node _ _ (hq.path hB).init hne
    exact .table k js j hq (heq ▸ hne) (heq ▸ hx)

theorem Build.extend (h : s.Build ip i B t) (hB : ∀ bn, B bn → bn < MAXFILE) : Extend s t := by
  induction h with
  | refl => exact .refl s
  | root _ _ hwf hip hal h0 ha ih =>
    exact ih.trans ((graftRoot_step hwf hip hal h0 ha.lt ha.free).grow hwf).toExtend
  | entry _ hbn hwf hpre hne h0 ha ih =>
    exact ih.trans ((entry_step (hB _ hbn) hwf hpre hne h0 ha).grow hwf).toExtend
  | leaf _ _ hwf hne ih => exact ih.trans (setLeaf_extend hwf hne _)

/-- A node that is missing now was missing before. -/
theorem Extend.missing {q : Fin NADDRS × List Nat} (g : Extend s t) (hp : blockShape.Path (i, q.1) q.2)
    (h0 : t.forest.node (i, q.1) q.2 = 0) : s.forest.node (i, q.1) q.2 = 0 := by
  by_contra hne
  exact hne ((g.node _ _ hp hne).symm.trans h0)

theorem Build.trace (h : s.Build ip i B t) (hB : ∀ bn, B bn → bn < MAXFILE) :
    ∃ ds, t.log.trace = ds ++ s.log.trace ∧ ∀ x ∈ ds, Dirty s t i B x := by
  induction h with
  | refl => exact ⟨[], rfl, by simp⟩
  | @root t bn a h hbn hwf hip hal h0 ha ih =>
    obtain ⟨ds, htrace, hds⟩ := ih
    have g := graftRoot_step hwf hip hal h0 ha.lt ha.free
    have hnew := g.graft.node_same Shape.Path.nil
    have hne : (t.graftRoot ip (blockPath bn).1 a).forest.node (i, (blockPath bn).1) [] ≠ 0 :=
      hnew ▸ hwf.ofNat_ne_zero ha.lt ha.free
    have hq : s.Missing i B ((blockPath bn).1, []) :=
      ⟨⟨bn, hbn, rfl, List.nil_prefix⟩, (h.extend hB).missing Shape.Path.nil g.graft.empty⟩
    have ha' : (UInt32.ofNat a).toNat = a := hwf.toNat_ofNat ha.lt
    refine ⟨a :: s.sb.BBLOCK a :: ds, ?_, fun x hx => ?_⟩
    · rw [← (h.extend hB).sb]
      simp [graftRoot, htrace]
    · simp only [List.mem_cons] at hx
      rcases hx with rfl | rfl | hx
      · exact .node _ hq hne (by rw [hnew, ha'])
      · exact .bitmap _ hq hne (by rw [hnew, ha'])
      · exact (hds x hx).extend hB (g.grow hwf).toExtend
  | @entry t bn a j js h hbn hwf hpre hne h0 ha ih =>
    obtain ⟨ds, htrace, hds⟩ := ih
    have g := entry_step (hB _ hbn) hwf hpre hne h0 ha
    have hp : blockShape.Path (i, (blockPath bn).1) (js ++ [j]) := by
      obtain ⟨ls, hls⟩ := hpre
      exact (hls ▸ blockPath_path (hB bn hbn) i).append_left
    have hnew := g.graft.node_same hp
    have hne' := hnew ▸ hwf.ofNat_ne_zero ha.lt ha.free
    have hq : s.Missing i B ((blockPath bn).1, js ++ [j]) :=
      ⟨⟨bn, hbn, rfl, hpre⟩, (h.extend hB).missing hp h0⟩
    have ha' : (UInt32.ofNat a).toNat = a := hwf.toNat_ofNat ha.lt
    have htable := (g.grow hwf).node _ _ hp.init hne
    refine ⟨(t.forest.node (i, (blockPath bn).1) js).toNat :: a :: s.sb.BBLOCK a :: ds, ?_, fun x hx => ?_⟩
    · rw [← (h.extend hB).sb]
      simp [graftEntry, htrace]
    · simp only [List.mem_cons] at hx
      rcases hx with rfl | rfl | rfl | hx
      · exact .table _ js j hq (by rw [htable]; exact hne) (by rw [htable])
      · exact .node _ hq hne' (by rw [hnew, ha'])
      · exact .bitmap _ hq hne' (by rw [hnew, ha'])
      · exact (hds x hx).extend hB (g.grow hwf).toExtend
  | @leaf t bn c h hbn hwf hne ih =>
    obtain ⟨ds, htrace, hds⟩ := ih
    have haddr := setLeaf_blockAddr hwf hne c i bn
    refine ⟨(t.blockAddr i bn).toNat :: ds, ?_, fun x hx => ?_⟩
    · simp [setLeaf, htrace]
    · simp only [List.mem_cons] at hx
      rcases hx with rfl | hx
      · exact .data bn hbn (by rw [haddr]; exact hne) (by rw [haddr])
      · exact (hds x hx).extend hB (setLeaf_extend hwf hne c)

/-! ## The whole state -/

/-- `writei(ip, src, off, n)` makes the file longer. -/
def Grows (s : Fs) (i off n : Nat) : Prop := 0 < n ∧ (s.view i).size.toNat < off + n

/-- `t` is `s` after `writei(ip, src, off, n)` on the inode `i` in `ip`. -/
structure Wrote (s t : Fs) (ip : InodePtr) (i off n : Nat) (src : Bytes) : Prop where
  inv : t.Inv
  keeps : Keeps s t
  icache : ∀ jp, jp ≠ ip → t.icache jp = s.icache jp
  view : ∀ j < s.sb.ninodes, j ≠ i → t.view j = s.view j
  other : ∀ j < s.sb.ninodes, j ≠ i → SameFile s t j
  dinode : ∀ j < s.sb.ninodes, j ≠ i → t.dinode j = s.dinode j
  type : (t.view i).type = (s.view i).type
  size : (t.view i).size.toNat = if 0 < n then max (s.view i).size.toNat (off + n)
    else (s.view i).size.toNat
  byte : t.byte i = (s.byte i).splice off n src
  file : t.file = fun j => if j = i then (s.file i).write off n src else s.file j
  kept : ∀ bn, s.blockAddr i bn ≠ 0 → t.blockAddr i bn = s.blockAddr i bn
  only : ∀ bn, ¬ Touches off n bn → t.blockAddr i bn = s.blockAddr i bn
  mapped : t.Mapped i off n
  node : ∀ k js, blockShape.Path k js → k.1 ≠ i → t.forest.node k js = s.forest.node k js
  grown : s.Grows i off n → t.dinode i = (t.icache ip).toDinode
  stayed : ¬ s.Grows i off n → t.dinode i = s.dinode i ∧
    ((∀ bn, Touches off n bn → (s.view i).addrs (blockPath bn).1 ≠ 0) → t.icache ip = s.icache ip)
  logs : ∃ ds, t.log.trace = ds ++ s.log.trace ∧ ∀ x ∈ ds, Dirty s t i (Touches off n) x ∨
    (s.Grows i off n ∧ x = s.sb.IBLOCK i)

section WriteEnd

variable {off n : Nat} {src : Bytes}

theorem writeEnd_icache_ne {jp : InodePtr} (hj : jp ≠ ip) : (writeEnd t ip off n).icache jp = t.icache jp := by
  unfold writeEnd
  split
  · exact setInode_icache_ne _ _ hj
  · rfl

theorem writeEnd_dinode_ne {j : Nat} (hj : j ≠ (t.icache ip).inum) :
    (writeEnd t ip off n).dinode j = t.dinode j := by
  unfold writeEnd
  split
  · unfold resize
    rw [flush_dinode, if_neg]
    · rfl
    · rw [setInode_icache_same]
      exact hj
  · rfl

/-- What the loop of `writei` and its end leave. -/
theorem wrote_of_build {w : Fs} (h : s.Inv) (hip : s.Caches ip i) (hle : off + n ≤ MAXFILE * BSIZE)
    (hbuild : s.Build ip i (Touches off n) w) (hwf : w.Wf) (hw : Written s w i off n src) :
    Wrote s (writeEnd w ip off n) ip i off n src := by
  have hB : ∀ bn, Touches off n bn → bn < MAXFILE := fun bn hbn => hbn.lt hle
  have hlt := h.lt hip
  have hipw := hw.caches hip
  have honly := hbuild.onlyFor hB
  have hkeep := (Keeps.of_extend hw.toExtend).trans (.of_writeEnd w ip off n)
  have haddr := writeEnd_blockAddr hwf hipw hle
  have hinv : (writeEnd w ip off n).Inv := (h.extend hwf hw.toExtend).writeEnd hipw hle
  have hsize : (w.icache ip).size.toNat = (s.view i).size.toNat := by
    rw [← view_of_caches hwf.cacheInj hipw, hw.view_size h.cacheInj hlt]
  have hicache : ∀ jp, jp ≠ ip → (writeEnd w ip off n).icache jp = s.icache jp := fun jp hj =>
    (writeEnd_icache_ne hj).trans (hbuild.icache_ne hj)
  have hdinode : ∀ j < s.sb.ninodes, j ≠ i → (writeEnd w ip off n).dinode j = s.dinode j := by
    intro j hj hne
    rw [writeEnd_dinode_ne (by rw [hipw.2.2]; exact hne), hw.dinode j hj]
  have hview : ∀ j < s.sb.ninodes, j ≠ i → (writeEnd w ip off n).view j = s.view j := by
    intro j hj hne
    rcases view_cases h.cacheInj j with ⟨jp, hjp, hv⟩ | ⟨hno, hv⟩
    · have hjne : jp ≠ ip := by
        rintro rfl
        exact hne (hjp.2.2.symm.trans hip.2.2)
      have hjp' : (writeEnd w ip off n).Caches jp j := by
        unfold Caches
        rw [hicache jp hjne]
        exact hjp
      rw [view_of_caches hinv.cacheInj hjp', hicache jp hjne, hv]
    · rw [view_of_not_cached, hdinode j hj hne, hv]
      intro jp hjp
      refine hno jp ⟨?_, ?_, ?_⟩
      · exact (hkeep.field Inode.ref (fun _ => rfl) jp) ▸ hjp.1
      · exact (hkeep.field Inode.valid (fun _ => rfl) jp) ▸ hjp.2.1
      · exact (hkeep.inum jp) ▸ hjp.2.2
  have hgrows : s.Grows i off n ↔ 0 < n ∧ (w.icache ip).size.toNat < off + n := by rw [hsize, Grows]
  refine
    { inv := hinv, keeps := hkeep, icache := hicache, view := hview,
      other := fun j hj hne => ⟨?_, ?_, ?_, ?_⟩, dinode := hdinode, type := ?_, size := ?_, byte := ?_, file := writeEnd_file h.toWf hwf hw hlt hipw hle,
      kept := fun bn hne => ?_, only := fun bn hbn => ?_, mapped := fun p h1 h2 => ?_,
      node := fun k js hp hk => ?_, grown := fun hg => ?_, stayed := fun hg => ⟨?_, fun hslots => ?_⟩, logs := ?_ }
  · rw [hview j hj hne]
  · rw [hview j hj hne]
  · rw [haddr]
    funext bn
    exact honly.blockAddr hB fun hc => hne hc.1
  · rw [writeEnd_byte hwf hipw hle]
    funext p
    rw [hw.byte, if_neg hne]
  · rw [writeEnd_type hwf hipw, hw.view_type h.cacheInj hlt]
  · rw [writeEnd_size hwf hipw hle, hw.view_size h.cacheInj hlt]
    simp only [true_and]
  · rw [writeEnd_byte hwf hipw hle]
    funext p
    rw [hw.byte, if_pos rfl]
  · rw [haddr]
    exact hw.blockAddr hne
  · rw [haddr]
    exact honly.blockAddr hB fun hc => hbn hc.2
  · rw [haddr]
    exact hw.mapped p h1 h2
  · rw [writeEnd_node hwf hipw hle hp]
    refine honly k js hp fun bn _ hc => hk ?_
    rw [hc.1]
  · unfold writeEnd
    rw [if_pos (hgrows.mp hg)]
    unfold resize
    rw [flush_dinode, flush_icache, setInode_icache_same, if_pos]
    exact hipw.2.2.symm
  · unfold writeEnd
    rw [if_neg fun hc => hg (hgrows.mpr hc)]
    exact hw.dinode i hlt
  · unfold writeEnd
    rw [if_neg fun hc => hg (hgrows.mpr hc)]
    refine congrFun (hbuild.icache_of_slots fun bn hbn => ?_) ip
    rw [← view_of_caches h.cacheInj hip]
    exact hslots bn hbn
  · obtain ⟨ds, htrace, hds⟩ := hbuild.trace hB
    have hext : ∀ x, Dirty s w i (Touches off n) x → Dirty s (writeEnd w ip off n) i (Touches off n) x := by
      intro x hx
      have hnode : ∀ {k : Fin NADDRS} {js : List Nat}, blockShape.Path (i, k) js →
          (writeEnd w ip off n).forest.node (i, k) js = w.forest.node (i, k) js :=
        fun hp => writeEnd_node hwf hipw hle hp
      cases hx with
      | data bn hbn hne hx => exact .data bn hbn (by rw [haddr]; exact hne) (by rw [haddr]; exact hx)
      | node q hq hne hx =>
        have heq := hnode (hq.path hB)
        exact .node q hq (by rw [heq]; exact hne) (by rw [heq]; exact hx)
      | bitmap q hq hne hx =>
        have heq := hnode (hq.path hB)
        exact .bitmap q hq (by rw [heq]; exact hne) (by rw [heq]; exact hx)
      | table k js j hq hne hx =>
        have heq := hnode (hq.path hB).init
        exact .table k js j hq (by rw [heq]; exact hne) (by rw [heq]; exact hx)
    by_cases hg : s.Grows i off n
    · refine ⟨s.sb.IBLOCK i :: ds, ?_, fun x hx => ?_⟩
      · unfold writeEnd
        rw [if_pos (hgrows.mp hg)]
        simp [resize, htrace, hipw.2.2, hw.sb]
      · rcases List.mem_cons.mp hx with rfl | hx
        · exact .inr ⟨hg, rfl⟩
        · exact .inl (hext x (hds x hx))
    · refine ⟨ds, ?_, fun x hx => .inl (hext x (hds x hx))⟩
      unfold writeEnd
      rw [if_neg fun hc => hg (hgrows.mpr hc), htrace]

end WriteEnd

end Fs

/-- `writei` on a file or directory fails up front, or leaves `Fs.Wrote`. -/
theorem wp_writei_wrote {s : Fs} {E : Stop → Prop} {ip : InodePtr} {i : Nat} {src : Bytes}
    {off n : UInt32} {Q : Int → Fs → Prop} (hout : E .ballocOutOfBlocks) (h : s.Inv) (hip : s.Caches ip i)
    (hdev : (s.icache ip).type ≠ T_DEV) (hlog : MayLog E s)
    (hbad : MAXFILE * BSIZE < off.toNat + n.toNat → Q (-1) s)
    (hok : off.toNat + n.toNat ≤ MAXFILE * BSIZE → ∀ t, Fs.Wrote s t ip i off.toNat n.toNat src → Q n.toNat t) :
    wp (writei ip src off n) Q E s :=
  wp_writei (I := s.Build ip i (Touches off.toNat n.toNat)) hout h.toWf hip (h.allocated hip) hdev hlog .refl
    (fun _ => rangeStep_build) (fun _ => leafStep_build) hbad fun _ hle hbuild hwf hw =>
      hok hle _ (Fs.wrote_of_build h hip hle hbuild hwf hw)

end Xv6
