-- SUMMARY: The ownership invariant of the block trees, and the two ways bmap extends a tree.
import Xv6.FileSystem.BlockTree

/-! # Block ownership

`Fs.Wf` is the invariant of the huge-file layout: every block on a path from an
allocated inode lies in the data area, is marked in the free map, and is on no
other path. `Fs.graftRoot` and `Fs.graftEntry` are the states `bmap` reaches when
it allocates, both are grafts of the block forest, and `Fs.Grow` is what they
have in common: the trees gain nodes and no file changes.
-/

namespace Xv6

open Prog

/-- `ip->addrs[k] = a`. -/
def Inode.setAddr (x : Inode) (k : Fin NADDRS) (a : UInt32) : Inode :=
  { x with addrs := Function.update x.addrs k a }

namespace Fs

/-! ## Contents -/

/-- The disk block that holds block `bn` of file `i`, `0` if there is none. -/
def blockAddr (s : Fs) (i bn : Nat) : UInt32 :=
  if bn < MAXFILE then s.forest.node (i, (blockPath bn).1) (blockPath bn).2 else 0

/-- The contents of block `bn` of file `i`; a block that is not there reads as zero. -/
def block (s : Fs) (i bn : Nat) : Bytes :=
  if s.blockAddr i bn = 0 then Bytes.zero else s.disk (s.blockAddr i bn).toNat

theorem blockAddr_of_lt {s : Fs} {i bn : Nat} (h : bn < MAXFILE) :
    s.blockAddr i bn = s.forest.node (i, (blockPath bn).1) (blockPath bn).2 := if_pos h

/-! ## Invariant -/

structure Wf (s : Fs) : Prop where
  sbWf : s.sb.Wf
  sbDisk : Superblock.ofBytes (s.disk SBLOCK) = s.sb
  metaUsed : ∀ b, s.sb.IsMeta b → s.used b = true
  owned : ∀ ⦃k js⦄, blockShape.Path k js → s.forest.node k js ≠ 0 →
    (s.forest.node k js).toNat < s.sb.size ∧ ¬ s.sb.IsMeta (s.forest.node k js).toNat ∧
      s.used (s.forest.node k js).toNat = true
  unshared : s.forest.Unshared blockShape
  cacheInj : s.CacheInj
  cacheRange : ∀ ip, 0 < (s.icache ip).ref → (s.icache ip).inum < s.sb.ninodes
  sizeLe : ∀ i, s.Allocated i → (s.view i).size.toNat ≤ MAXFILE * BSIZE

namespace Wf

variable {s : Fs}

/-- The invariant does not look at the log. -/
theorem setLog (h : s.Wf) (l : Log) : (s.setLog l).Wf :=
  ⟨h.sbWf, h.sbDisk, h.metaUsed, h.owned, h.unshared, h.cacheInj, h.cacheRange, h.sizeLe⟩

theorem node_lt_FSSIZE (h : s.Wf) {k : Nat × Fin NADDRS} {js : List Nat}
    (hp : blockShape.Path k js) (hne : s.forest.node k js ≠ 0) :
    (s.forest.node k js).toNat < FSSIZE :=
  (h.owned hp hne).1.trans_le h.sbWf.sizeLe

/-- A free block carries no metadata. -/
theorem not_isMeta (h : s.Wf) {a : Nat} (hfree : s.used a = false) : ¬ s.sb.IsMeta a := by
  intro hm
  rw [h.metaUsed a hm] at hfree
  cases hfree

theorem toNat_ofNat (h : s.Wf) {a : Nat} (ha : a < s.sb.size) : (UInt32.ofNat a).toNat = a := by
  have hsize := ha.trans_le h.sbWf.sizeLe
  rw [UInt32.toNat_ofNat']
  apply Nat.mod_eq_of_lt
  simp only [FSSIZE] at hsize
  omega

theorem ofNat_ne_zero (h : s.Wf) {a : Nat} (ha : a < s.sb.size) (hfree : s.used a = false) :
    UInt32.ofNat a ≠ 0 := by
  intro h0
  have hz : a = 0 := by
    have := congrArg UInt32.toNat h0
    rwa [h.toNat_ofNat ha] at this
  exact h.not_isMeta hfree (.inl hz)

/-- A free block is on no path. -/
theorem fresh (h : s.Wf) {a : Nat} (ha : a < s.sb.size) (hfree : s.used a = false) :
    s.forest.Fresh blockShape (UInt32.ofNat a) := by
  intro k js hp heq
  have hne : s.forest.node k js ≠ 0 := heq ▸ h.ofNat_ne_zero ha hfree
  have hused := (h.owned hp hne).2.2
  rw [heq, h.toNat_ofNat ha, hfree] at hused
  cases hused

theorem node_ne_alloc (h : s.Wf) {a : Nat} (hfree : s.used a = false)
    {k : Nat × Fin NADDRS} {js : List Nat} (hp : blockShape.Path k js)
    (hne : s.forest.node k js ≠ 0) : (s.forest.node k js).toNat ≠ a := by
  intro heq
  have hused := (h.owned hp hne).2.2
  rw [heq, hfree] at hused
  cases hused

theorem node_ne_BBLOCK (h : s.Wf) {a : Nat} (ha : a < s.sb.size)
    {k : Nat × Fin NADDRS} {js : List Nat} (hp : blockShape.Path k js)
    (hne : s.forest.node k js ≠ 0) : (s.forest.node k js).toNat ≠ s.sb.BBLOCK a := by
  intro heq
  exact (h.owned hp hne).2.1 (heq ▸ h.sbWf.BBLOCK_isMeta ha)

theorem IBLOCK_ne_alloc (h : s.Wf) {a i : Nat} (hfree : s.used a = false)
    (hi : i < s.sb.ninodes) : s.sb.IBLOCK i ≠ a :=
  fun heq => h.not_isMeta hfree (heq ▸ h.sbWf.IBLOCK_isMeta hi)

end Wf

/-! ## How views depend on the state -/

theorem view_congr {s s' : Fs} {i : Nat} (hdisk : s'.dinode i = s.dinode i)
    (hcache : s'.icache = s.icache) : s'.view i = s.view i := by
  have hcaches : ∀ ip, s'.Caches ip i ↔ s.Caches ip i := by
    intro ip
    unfold Caches
    rw [hcache]
  unfold view
  simp only [hcaches, hcache, hdisk]

/-- Replacing one cache entry changes the views of the inode it held and of the
    inode it holds now. -/
theorem view_setInode_eq {s : Fs} (hinj : s.CacheInj) (ip : InodePtr) (x : Inode)
    (hinj' : (s.setInode ip x).CacheInj) (j : Nat) : (s.setInode ip x).view j =
      if 0 < x.ref ∧ x.valid = true ∧ x.inum = j then x.toDinode
      else if s.Caches ip j then s.dinode j else s.view j := by
  have hsame : (s.setInode ip x).Caches ip j ↔ 0 < x.ref ∧ x.valid = true ∧ x.inum = j := by
    unfold Caches
    rw [setInode_icache_same]
  have hother : ∀ jp, jp ≠ ip → ((s.setInode ip x).Caches jp j ↔ s.Caches jp j) := by
    intro jp hjp
    unfold Caches
    rw [setInode_icache_ne _ _ hjp]
  split
  · next hx => rw [view_of_caches hinj' (hsame.mpr hx), setInode_icache_same]
  · next hx =>
    rcases view_cases hinj j with ⟨jp, hjp, hv⟩ | ⟨hno, hv⟩
    · by_cases heq : jp = ip
      · subst heq
        rw [if_pos hjp]
        refine view_of_not_cached fun kp hkp => ?_
        by_cases hk : kp = jp
        · subst hk
          exact hx (hsame.mp hkp)
        · have hkp' := (hother kp hk).mp hkp
          exact hk (hinj kp jp hkp'.1 hjp.1 (hkp'.2.2.trans hjp.2.2.symm))
      · have hnot : ¬ s.Caches ip j := fun hc => heq (hinj jp ip hjp.1 hc.1 (hjp.2.2.trans hc.2.2.symm))
        rw [if_neg hnot, hv, view_of_caches hinj' ((hother jp heq).mpr hjp), setInode_icache_ne _ _ heq]
    · rw [if_neg (hno ip), hv]
      refine view_of_not_cached fun kp hkp => ?_
      by_cases hk : kp = ip
      · subst hk
        exact hx (hsame.mp hkp)
      · exact hno kp ((hother kp hk).mp hkp)

theorem cacheInj_setInode {s : Fs} (hinj : s.CacheInj) (ip : InodePtr) (x : Inode)
    (href : 0 < x.ref ↔ 0 < (s.icache ip).ref) (hinum : x.inum = (s.icache ip).inum) :
    (s.setInode ip x).CacheInj := by
  have hsame : ∀ jp, (0 < ((s.setInode ip x).icache jp).ref ↔ 0 < (s.icache jp).ref) ∧
      ((s.setInode ip x).icache jp).inum = (s.icache jp).inum := by
    intro jp
    by_cases hj : jp = ip
    · subst hj
      rw [setInode_icache_same]
      exact ⟨href, hinum⟩
    · rw [setInode_icache_ne _ _ hj]
      exact ⟨Iff.rfl, rfl⟩
  intro jp kp hjp hkp heq
  rw [(hsame jp).1] at hjp
  rw [(hsame kp).1] at hkp
  rw [(hsame jp).2, (hsame kp).2] at heq
  exact hinj jp kp hjp hkp heq

/-- Rewriting the fields of one cache entry, not which inode it holds, changes the
    view of that inode only. -/
theorem view_setInode {s : Fs} (hinj : s.CacheInj) (ip : InodePtr) (x : Inode)
    (href : 0 < x.ref ↔ 0 < (s.icache ip).ref) (hvalid : x.valid = (s.icache ip).valid)
    (hinum : x.inum = (s.icache ip).inum) :
    (s.setInode ip x).CacheInj ∧ ∀ i, (s.setInode ip x).view i =
      if s.Caches ip i then x.toDinode else s.view i := by
  have hinj' := cacheInj_setInode hinj ip x href hinum
  have hiff : ∀ i, (0 < x.ref ∧ x.valid = true ∧ x.inum = i) ↔ s.Caches ip i := by
    intro i
    rw [href, hvalid, hinum]
    rfl
  refine ⟨hinj', fun i => ?_⟩
  rw [view_setInode_eq hinj ip x hinj']
  simp only [hiff]
  split <;> rfl

theorem dinode_alloc {s : Fs} (h : s.Wf) {a i : Nat} (hfree : s.used a = false)
    (hi : i < s.sb.ninodes) : (s.alloc a).dinode i = s.dinode i := by
  unfold dinode
  rw [alloc_sb, alloc_disk_ne s (h.IBLOCK_ne_alloc hfree hi) (h.sbWf.IBLOCK_ne_BBLOCK hi)]

/-! ## Grafts -/

/-- `ip->addrs[k] = balloc()`. -/
def graftRoot (s : Fs) (ip : InodePtr) (k : Fin NADDRS) (a : Nat) : Fs :=
  (s.alloc a).setInode ip ((s.icache ip).setAddr k (UInt32.ofNat a))

/-- `a[j] = balloc(); log_write(bp)` for the table in block `b`. -/
def graftEntry (s : Fs) (b j a : Nat) : Fs :=
  ((s.alloc a).setBlock b ((s.disk b).setWord j (UInt32.ofNat a))).logged b

/-- The trees only gain nodes, and nothing but `addrs` changes in any inode. -/
structure Extend (s s' : Fs) : Prop where
  sb : s'.sb = s.sb
  devsw : s'.devsw = s.devsw
  outstanding : s'.log.outstanding = s.log.outstanding
  inode : ∀ ip, { s'.icache ip with addrs := (s.icache ip).addrs } = s.icache ip
  dinode : ∀ i < s.sb.ninodes, s'.dinode i = s.dinode i
  used : ∀ b < s.sb.size, s.used b = true → s'.used b = true
  node : ∀ k js, blockShape.Path k js → s.forest.node k js ≠ 0 →
    s'.forest.node k js = s.forest.node k js

/-- The trees only gain nodes, and every file keeps its contents. -/
structure Grow (s s' : Fs) : Prop extends Extend s s' where
  block : ∀ i bn, s'.block i bn = s.block i bn

theorem Extend.refl (s : Fs) : Extend s s :=
  ⟨rfl, rfl, rfl, fun _ => rfl, fun _ _ => rfl, fun _ _ h => h, fun _ _ _ _ => rfl⟩

theorem Extend.trans {s t u : Fs} (h : Extend s t) (h' : Extend t u) : Extend s u where
  sb := h'.sb.trans h.sb
  devsw := h'.devsw.trans h.devsw
  outstanding := h'.outstanding.trans h.outstanding
  inode := fun ip => by
    rw [← h.inode ip, ← h'.inode ip]
  dinode := fun i hi => (h'.dinode i (h.sb ▸ hi)).trans (h.dinode i hi)
  used := fun b hlt hb => h'.used b (h.sb ▸ hlt) (h.used b hlt hb)
  node := fun k js hp hne => by
    have heq := h.node k js hp hne
    rw [h'.node k js hp (heq ▸ hne), heq]

theorem Grow.refl (s : Fs) : Grow s s := ⟨.refl s, fun _ _ => rfl⟩

theorem Grow.trans {s t u : Fs} (h : Grow s t) (h' : Grow t u) : Grow s u :=
  ⟨h.toExtend.trans h'.toExtend, fun i bn => (h'.block i bn).trans (h.block i bn)⟩

/-- Cache entries that differ in `addrs` only hold the same inodes, and views that
    come from them differ in `addrs` only. -/
theorem view_of_inode {s s' : Fs} (hinj : s.CacheInj)
    (hinode : ∀ ip, { s'.icache ip with addrs := (s.icache ip).addrs } = s.icache ip)
    (hdinode : ∀ i < s.sb.ninodes, s'.dinode i = s.dinode i) :
    (∀ ip i, s'.Caches ip i ↔ s.Caches ip i) ∧ s'.CacheInj ∧
      ∀ i < s.sb.ninodes, { s'.view i with addrs := (s.view i).addrs } = s.view i := by
  have href : ∀ ip, (s'.icache ip).ref = (s.icache ip).ref := fun ip => by rw [← hinode ip]
  have hinum : ∀ ip, (s'.icache ip).inum = (s.icache ip).inum := fun ip => by rw [← hinode ip]
  have hvalid : ∀ ip, (s'.icache ip).valid = (s.icache ip).valid := fun ip => by rw [← hinode ip]
  have hcaches : ∀ ip i, s'.Caches ip i ↔ s.Caches ip i := by
    intro ip i
    unfold Caches
    rw [href, hinum, hvalid]
  have hinj' : s'.CacheInj := by
    intro ip jp h1 h2 h3
    rw [href] at h1 h2
    rw [hinum, hinum] at h3
    exact hinj ip jp h1 h2 h3
  refine ⟨hcaches, hinj', fun i hi => ?_⟩
  rcases view_cases hinj i with ⟨ip, hip, hv⟩ | ⟨hno, hv⟩
  · rw [view_of_caches hinj' ((hcaches ip i).mpr hip), hv]
    exact congrArg Inode.toDinode (hinode ip)
  · rw [view_of_not_cached fun ip hip => hno ip ((hcaches ip i).mp hip), hdinode i hi, hv]

/-- One allocation of `bmap`: the fresh block `a` is put on an empty path. -/
structure GraftStep (s s' : Fs) (k : Nat × Fin NADDRS) (ls : List Nat) (a : Nat) : Prop where
  lt : a < s.sb.size
  free : s.used a = false
  graft : Forest.Graft blockShape s.forest s'.forest k ls (UInt32.ofNat a)
  sb : s'.sb = s.sb
  devsw : s'.devsw = s.devsw
  outstanding : s'.log.outstanding = s.log.outstanding
  inode : ∀ ip, { s'.icache ip with addrs := (s.icache ip).addrs } = s.icache ip
  dinode : ∀ i < s.sb.ninodes, s'.dinode i = s.dinode i
  used : ∀ b < s.sb.size, s'.used b = (decide (b = a) || s.used b)
  blank : s'.disk a = Bytes.zero
  sbDisk : s'.disk SBLOCK = s.disk SBLOCK
  leaf : ∀ k js, blockShape.Path k js → js.length = blockShape.depth k → s.forest.node k js ≠ 0 →
    s'.disk (s.forest.node k js).toNat = s.disk (s.forest.node k js).toNat

namespace GraftStep

variable {s s' : Fs} {k : Nat × Fin NADDRS} {ls : List Nat} {a : Nat}

theorem wf (g : GraftStep s s' k ls a) (h : s.Wf) : s'.Wf := by
  obtain ⟨-, hinj, hview⟩ := view_of_inode h.cacheInj g.inode g.dinode
  refine ⟨g.sb ▸ h.sbWf, ?_, ?_, ?_, g.graft.unshared h.unshared (h.fresh g.lt g.free), hinj, ?_, ?_⟩
  · rw [g.sbDisk, g.sb, h.sbDisk]
  · intro b hb
    rw [g.sb] at hb
    rw [g.used b (h.sbWf.isMeta_lt hb), h.metaUsed b hb, Bool.or_true]
  · intro k' js hp hne
    rw [g.sb]
    by_cases heq : (k', js) = (k, ls)
    · rw [(g.graft.node_cases hp).1 heq, h.toNat_ofNat g.lt]
      exact ⟨g.lt, h.not_isMeta g.free, by simp [g.used a g.lt]⟩
    · rw [g.graft.node_other hp heq] at hne ⊢
      obtain ⟨h1, h2, h3⟩ := h.owned hp hne
      exact ⟨h1, h2, by simp [g.used _ h1, h3]⟩
  · intro ip hip
    have hx := g.inode ip
    have href : (s'.icache ip).ref = (s.icache ip).ref := by rw [← hx]
    have hinum : (s'.icache ip).inum = (s.icache ip).inum := by rw [← hx]
    rw [href] at hip
    rw [hinum, g.sb]
    exact h.cacheRange ip hip
  · intro i hi
    have hlt : i < s.sb.ninodes := g.sb ▸ hi.1
    have hv := hview i hlt
    have htype : (s'.view i).type = (s.view i).type := by rw [← hv]
    have hsize : (s'.view i).size = (s.view i).size := by rw [← hv]
    rw [hsize]
    exact h.sizeLe i ⟨hlt, htype ▸ hi.2⟩

theorem block (g : GraftStep s s' k ls a) (h : s.Wf) (i bn : Nat) : s'.block i bn = s.block i bn := by
  unfold Fs.block
  by_cases hbn : bn < MAXFILE
  · have hp := blockPath_path hbn i
    rw [blockAddr_of_lt hbn, blockAddr_of_lt hbn]
    by_cases heq : ((i, (blockPath bn).1), (blockPath bn).2) = (k, ls)
    · -- the block was a hole and is now the zeroed block
      obtain ⟨rfl, rfl⟩ := Prod.mk.inj heq
      rw [g.graft.node_same hp, g.graft.empty, if_pos rfl, if_neg (h.ofNat_ne_zero g.lt g.free),
        h.toNat_ofNat g.lt, g.blank]
    · rw [g.graft.node_other hp heq]
      split
      · rfl
      · next hne => exact g.leaf _ _ hp (blockPath_length hbn) hne
  · simp [blockAddr, hbn]

theorem grow (g : GraftStep s s' k ls a) (h : s.Wf) : Grow s s' where
  sb := g.sb
  devsw := g.devsw
  outstanding := g.outstanding
  inode := g.inode
  dinode := g.dinode
  used := fun b hlt hb => by rw [g.used b hlt, hb, Bool.or_true]
  node := fun _ _ hp hne => g.graft.node_of_ne_zero hp hne
  block := g.block h

end GraftStep

theorem view_alloc {s : Fs} (h : s.Wf) {a i : Nat} (hfree : s.used a = false)
    (hi : i < s.sb.ninodes) : (s.alloc a).view i = s.view i :=
  view_congr (dinode_alloc h hfree hi) rfl

/-- The forest depends on the views of the inodes there are, and on the disk. -/
theorem root_congr {s s' : Fs} {k : Nat × Fin NADDRS} (hsb : s'.sb = s.sb)
    (hview : k.1 < s.sb.ninodes →
      (s'.view k.1).type = (s.view k.1).type ∧ (s'.view k.1).addrs k.2 = (s.view k.1).addrs k.2) :
    s'.forest.root k = s.forest.root k := by
  simp only [forest, Allocated, hsb]
  by_cases hi : k.1 < s.sb.ninodes
  · simp only [(hview hi).1, (hview hi).2]
  · simp [hi]

/-- A change that adds no path and frees no block that is still in use keeps the
    invariant. -/
theorem Wf.of_subtree {s s' : Fs} (h : s.Wf) (hsb : s'.sb = s.sb)
    (hdisk : s'.disk SBLOCK = s.disk SBLOCK)
    (hused : ∀ b < s.sb.size, s.used b = true → (s.sb.IsMeta b ∨
      ∃ k js, blockShape.Path k js ∧ s'.forest.node k js ≠ 0 ∧ (s.forest.node k js).toNat = b) →
      s'.used b = true)
    (hnode : ∀ ⦃k js⦄, blockShape.Path k js → s'.forest.node k js ≠ 0 →
      s'.forest.node k js = s.forest.node k js)
    (hinj : s'.CacheInj) (hrange : ∀ ip, 0 < (s'.icache ip).ref → (s'.icache ip).inum < s.sb.ninodes)
    (hsize : ∀ i, s'.Allocated i → (s'.view i).size.toNat ≤ MAXFILE * BSIZE) : s'.Wf where
  sbWf := hsb ▸ h.sbWf
  sbDisk := by rw [hdisk, hsb, h.sbDisk]
  metaUsed := fun b hb => by
    rw [hsb] at hb
    exact hused b (h.sbWf.isMeta_lt hb) (h.metaUsed b hb) (.inl hb)
  owned := fun k js hp hne => by
    have heq := hnode hp hne
    obtain ⟨hlt, hdata, hmark⟩ := h.owned hp (heq ▸ hne)
    rw [heq, hsb]
    exact ⟨hlt, hdata, hused _ hlt hmark (.inr ⟨k, js, hp, hne, rfl⟩)⟩
  unshared := fun k js k' js' hp hp' heq hne => by
    have hne' : s'.forest.node k' js' ≠ 0 := heq ▸ hne
    rw [hnode hp hne, hnode hp' hne'] at heq
    exact h.unshared hp hp' heq (hnode hp hne ▸ hne)
  cacheInj := hinj
  cacheRange := fun ip hip => hsb ▸ hrange ip hip
  sizeLe := hsize

/-- A change in which every root stays or goes, and that leaves the data area alone. -/
theorem Wf.of_roots {s s' : Fs} (h : s.Wf) (hsb : s'.sb = s.sb)
    (hdisk : s'.disk SBLOCK = s.disk SBLOCK)
    (hused : ∀ b < s.sb.size, s.used b = true → s'.used b = true)
    (hdata : ∀ b, ¬ s.sb.IsMeta b → s'.disk b = s.disk b)
    (hroot : ∀ k, s'.forest.root k = 0 ∨ s'.forest.root k = s.forest.root k)
    (hinj : s'.CacheInj) (hrange : ∀ ip, 0 < (s'.icache ip).ref → (s'.icache ip).inum < s.sb.ninodes)
    (hsize : ∀ i, s'.Allocated i → (s'.view i).size.toNat ≤ MAXFILE * BSIZE) : s'.Wf := by
  have hprune : Forest.Prune blockShape s.forest s'.forest := by
    refine ⟨hroot, fun k js j hp hne => ?_⟩
    rw [forest_child, forest_child, hdata _ (h.owned hp.init hne).2.1]
  exact h.of_subtree hsb hdisk (fun b hlt hb _ => hused b hlt hb) (fun _ _ hp hne => hprune.node hp hne)
    hinj hrange hsize

theorem Wf.disk_alloc_node {s : Fs} (h : s.Wf) {a : Nat} (ha : a < s.sb.size)
    (hfree : s.used a = false) {k : Nat × Fin NADDRS} {js : List Nat} (hp : blockShape.Path k js)
    (hne : s.forest.node k js ≠ 0) :
    (s.alloc a).disk (s.forest.node k js).toNat = s.disk (s.forest.node k js).toNat :=
  alloc_disk_ne s (h.node_ne_alloc hfree hp hne) (h.node_ne_BBLOCK ha hp hne)

theorem Wf.used_alloc {s : Fs} (h : s.Wf) {a : Nat} (hfree : s.used a = false) {b : Nat}
    (hb : b < s.sb.size) : (s.alloc a).used b = (decide (b = a) || s.used b) :=
  Fs.used_alloc s fun heq => h.not_isMeta hfree (heq ▸ h.sbWf.BBLOCK_isMeta hb)

theorem Wf.SBLOCK_ne_of_free {s : Fs} (h : s.Wf) {a : Nat} (hfree : s.used a = false) :
    SBLOCK ≠ a := fun heq => h.not_isMeta hfree (.inr (.inl heq.symm))

theorem graftRoot_step {s : Fs} (h : s.Wf) {ip : InodePtr} {i : Nat} (hip : s.Caches ip i)
    (hal : s.Allocated i) {k : Fin NADDRS} (hk : (s.icache ip).addrs k = 0) {a : Nat}
    (ha : a < s.sb.size) (hfree : s.used a = false) :
    GraftStep s (s.graftRoot ip k a) (i, k) [] a := by
  have hinj : (s.alloc a).CacheInj := h.cacheInj
  have hview : ∀ j, (s.graftRoot ip k a).view j = if (s.alloc a).Caches ip j
      then ((s.icache ip).setAddr k (UInt32.ofNat a)).toDinode else (s.alloc a).view j :=
    (view_setInode hinj ip ((s.icache ip).setAddr k (UInt32.ofNat a)) Iff.rfl rfl rfl).2
  have hvi : (s.graftRoot ip k a).view i = ((s.icache ip).setAddr k (UInt32.ofNat a)).toDinode :=
    (hview i).trans (if_pos hip)
  have hvs : s.view i = (s.icache ip).toDinode := view_of_caches h.cacheInj hip
  have hnode : ∀ k' js, blockShape.Path k' js → s.forest.node k' js ≠ 0 →
      (s.graftRoot ip k a).disk (s.forest.node k' js).toNat
        = s.disk (s.forest.node k' js).toNat :=
    fun k' js => h.disk_alloc_node ha hfree
  refine
    { lt := ha, free := hfree, sb := rfl, devsw := rfl, outstanding := rfl, graft := ?_, inode := ?_,
      dinode := fun j hj => dinode_alloc h hfree hj, used := fun b hb => h.used_alloc hfree hb,
      blank := alloc_disk_same s a,
      sbDisk := alloc_disk_ne s (h.SBLOCK_ne_of_free hfree) (h.sbWf.SBLOCK_ne_BBLOCK a),
      leaf := fun k' js hp _ => hnode k' js hp }
  · refine
      { empty := ?_, rootSame := fun _ => ?_, rootOther := fun k' hk' => ?_,
        childSame := fun js j hjs => by simp at hjs,
        childOther := fun k' js j hp _ hne => ?_, blank := fun j _ => ?_ }
    · rw [Forest.node_nil, forest_root hal, hvs, hk]
    · have hal' : (s.graftRoot ip k a).Allocated i := by
        refine ⟨hal.1, ?_⟩
        rw [hvi]
        have htype := hal.2
        rw [hvs] at htype
        exact htype
      rw [forest_root hal', hvi]
      exact Function.update_self ..
    · refine root_congr rfl fun hlt => ?_
      by_cases hki : k'.1 = i
      · have hkk : k'.2 ≠ k := fun heq => hk' (by rw [← hki, ← heq])
        rw [hki, hvi, hvs]
        exact ⟨rfl, Function.update_of_ne hkk ..⟩
      · have hno : ¬ (s.alloc a).Caches ip k'.1 := fun hc => hki (hc.2.2.symm.trans hip.2.2)
        rw [hview, if_neg hno, view_alloc h hfree hlt]
        exact ⟨rfl, rfl⟩
    · exact congrArg (·.word j) (hnode k' js hp.init hne)
    · have hblank : (s.graftRoot ip k a).disk a = Bytes.zero := alloc_disk_same s a
      rw [forest_child, h.toNat_ofNat ha, hblank, Bytes.word_zero]
  · intro jp
    by_cases hj : jp = ip
    · subst hj
      simp [graftRoot, Inode.setAddr]
    · simp [graftRoot, setInode_icache_ne _ _ hj]

theorem graftEntry_step {s : Fs} (h : s.Wf) {k : Nat × Fin NADDRS} {js : List Nat} {j : Nat}
    (hp : blockShape.Path k (js ++ [j])) (hne : s.forest.node k js ≠ 0)
    (hj : (s.disk (s.forest.node k js).toNat).word j = 0) {a : Nat}
    (ha : a < s.sb.size) (hfree : s.used a = false) :
    GraftStep s (s.graftEntry (s.forest.node k js).toNat j a) k (js ++ [j]) a := by
  obtain ⟨hlt, hdata, hused⟩ := h.owned hp.init hne
  have hdisk : ∀ b, b ≠ (s.forest.node k js).toNat →
      (s.graftEntry (s.forest.node k js).toNat j a).disk b = (s.alloc a).disk b :=
    fun b hb => setBlock_disk_ne _ _ hb
  have hdisk_meta : ∀ b, s.sb.IsMeta b →
      (s.graftEntry (s.forest.node k js).toNat j a).disk b = (s.alloc a).disk b :=
    fun b hb => hdisk b fun heq => hdata (heq ▸ hb)
  have hdinode : ∀ i < s.sb.ninodes,
      (s.graftEntry (s.forest.node k js).toNat j a).dinode i = s.dinode i := by
    intro i hi
    rw [← dinode_alloc h hfree hi]
    exact congrArg (Dinode.get · (i % IPB)) (hdisk_meta _ (h.sbWf.IBLOCK_isMeta hi))
  -- the blocks of the other paths are not touched
  have hnode : ∀ k' js', blockShape.Path k' js' → s.forest.node k' js' ≠ 0 →
      (k', js') ≠ (k, js) → (s.graftEntry (s.forest.node k js).toNat j a).disk
        (s.forest.node k' js').toNat = s.disk (s.forest.node k' js').toNat := by
    intro k' js' hp' hne' hother
    rw [hdisk _ fun heq => ?_, h.disk_alloc_node ha hfree hp' hne']
    obtain ⟨rfl, rfl⟩ := h.unshared hp' hp.init (UInt32.toNat_inj.mp heq) hne'
    exact hother rfl
  have htable : (s.graftEntry (s.forest.node k js).toNat j a).disk (s.forest.node k js).toNat
      = (s.disk (s.forest.node k js).toNat).setWord j (UInt32.ofNat a) := setBlock_disk_same ..
  have hblank : (s.graftEntry (s.forest.node k js).toNat j a).disk a = Bytes.zero := by
    rw [hdisk a (h.node_ne_alloc hfree hp.init hne).symm, alloc_disk_same]
  refine
    { lt := ha, free := hfree, sb := rfl, devsw := rfl, outstanding := rfl, graft := ?_,
      inode := fun _ => rfl, dinode := hdinode, used := fun b hb => ?_, blank := hblank,
      sbDisk := ?_, leaf := fun k' js' hp' hlen hne' => hnode k' js' hp' hne' fun heq => ?_ }
  · refine
      { empty := ?_, rootSame := fun hnil => by simp at hnil, rootOther := fun k' _ => ?_,
        childSame := fun js' j' hjs => ?_, childOther := fun k' js' j' hp' hother hne' => ?_,
        blank := fun l _ => ?_ }
    · rw [Forest.node_concat_of_ne hne]
      exact hj
    · refine root_congr rfl fun hi => ?_
      rw [view_congr (hdinode k'.1 hi) rfl]
      exact ⟨rfl, rfl⟩
    · obtain ⟨rfl, hj'⟩ := List.append_inj' hjs rfl
      obtain rfl : j = j' := by simpa using hj'
      refine ⟨hne, ?_⟩
      rw [forest_child, htable, Bytes.word_setWord_same]
    · by_cases hsame : (k', js') = (k, js)
      · obtain ⟨rfl, rfl⟩ := Prod.mk.inj hsame
        have hjj : j' ≠ j := fun heq => hother (by rw [heq])
        rw [forest_child, htable, Bytes.word_setWord_ne _ _ hjj, forest_child]
      · exact congrArg (·.word j') (hnode k' js' hp'.init hne' hsame)
    · rw [forest_child, h.toNat_ofNat ha, hblank, Bytes.word_zero]
  · rw [← h.used_alloc hfree hb]
    exact congrArg (·.bit (b % BPB)) (hdisk_meta _ (h.sbWf.BBLOCK_isMeta hb))
  · rw [hdisk_meta SBLOCK (.inr (.inl rfl)),
      alloc_disk_ne s (h.SBLOCK_ne_of_free hfree) (h.sbWf.SBLOCK_ne_BBLOCK a)]
  · -- a data block is no table
    obtain ⟨rfl, rfl⟩ := Prod.mk.inj heq
    exact absurd hlen hp.length_lt.ne

end Fs

end Xv6
