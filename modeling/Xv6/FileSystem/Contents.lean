-- SUMMARY: Files as byte arrays: what the loops of readi and writei do to the contents of all files.
import Xv6.FileSystem.Bmap

/-! # File contents

`Fs.byte s i` is the contents of file `i` as one byte array, over all four
address regimes. Writing a data block changes the bytes of that block and
nothing else, since no data block is on two paths. The loops of `readi` and
`writei` then act on that byte array as `slice` and `splice` do.
-/

namespace Xv6

open Prog

namespace Fs

/-! ## Bytes of a file -/

/-- The byte at position `p` of file `i`. -/
def byte (s : Fs) (i : Nat) : Bytes := fun p => s.block i (p / BSIZE) (p % BSIZE)

theorem Grow.byte {s s' : Fs} (g : Grow s s') (i : Nat) : s'.byte i = s.byte i := by
  funext p
  unfold Fs.byte
  rw [g.block]

/-- No data block belongs to two block numbers. -/
theorem Wf.blockAddr_inj {s : Fs} (h : s.Wf) {i j bn bm : Nat} (hne : s.blockAddr i bn ≠ 0)
    (heq : s.blockAddr i bn = s.blockAddr j bm) : i = j ∧ bn = bm := by
  by_cases hbn : bn < MAXFILE
  · by_cases hbm : bm < MAXFILE
    · rw [blockAddr_of_lt hbn] at hne heq
      rw [blockAddr_of_lt hbm] at heq
      obtain ⟨hk, hpath⟩ := h.unshared (blockPath_path hbn i) (blockPath_path hbm j) heq hne
      obtain ⟨hij, hslot⟩ := Prod.mk.inj hk
      exact ⟨hij, blockPath_inj hbn hbm (Prod.ext hslot hpath)⟩
    · rw [heq] at hne
      simp [blockAddr, hbm] at hne
  · simp [blockAddr, hbn] at hne

theorem Wf.blockAddr_owned {s : Fs} (h : s.Wf) {i bn : Nat} (hne : s.blockAddr i bn ≠ 0) :
    (s.blockAddr i bn).toNat < s.sb.size ∧ ¬ s.sb.IsMeta (s.blockAddr i bn).toNat ∧
      s.used (s.blockAddr i bn).toNat = true := by
  by_cases hbn : bn < MAXFILE
  · rw [blockAddr_of_lt hbn] at hne ⊢
    exact h.owned (blockPath_path hbn i) hne
  · simp [blockAddr, hbn] at hne

theorem Wf.blockAddr_lt {s : Fs} (h : s.Wf) {i bn : Nat} (hne : s.blockAddr i bn ≠ 0) :
    (s.blockAddr i bn).toNat < FSSIZE :=
  (h.blockAddr_owned hne).1.trans_le h.sbWf.sizeLe

/-- A data block is no table. -/
theorem Wf.table_ne_blockAddr {s : Fs} (h : s.Wf) {i bn : Nat} {k : Nat × Fin NADDRS}
    {js : List Nat} {j : Nat} (hp : blockShape.Path k (js ++ [j])) (hne : s.forest.node k js ≠ 0) :
    (s.forest.node k js).toNat ≠ (s.blockAddr i bn).toNat := by
  intro heq
  have heq' := UInt32.toNat_inj.mp heq
  by_cases hbn : bn < MAXFILE
  · rw [blockAddr_of_lt hbn] at heq'
    obtain ⟨rfl, rfl⟩ := h.unshared hp.init (blockPath_path hbn i) heq' hne
    exact absurd (blockPath_length hbn) hp.length_lt.ne
  · rw [heq'] at hne
    simp [blockAddr, hbn] at hne

/-! ## Writing a data block -/

/-- Store `c` in the block at address `a` and log it. -/
def setLeaf (s : Fs) (a : UInt32) (c : Bytes) : Fs := (s.setBlock a.toNat c).logged a.toNat

section SetLeaf

variable {s : Fs} {i bn : Nat}

theorem setLeaf_disk_meta (h : s.Wf) (hne : s.blockAddr i bn ≠ 0) (c : Bytes) {b : Nat}
    (hb : s.sb.IsMeta b) : (s.setLeaf (s.blockAddr i bn) c).disk b = s.disk b :=
  setBlock_disk_ne s c fun heq => (h.blockAddr_owned hne).2.1 (heq ▸ hb)

theorem setLeaf_dinode (h : s.Wf) (hne : s.blockAddr i bn ≠ 0) (c : Bytes) {j : Nat}
    (hj : j < s.sb.ninodes) : (s.setLeaf (s.blockAddr i bn) c).dinode j = s.dinode j :=
  congrArg (Dinode.get · (j % IPB)) (setLeaf_disk_meta h hne c (h.sbWf.IBLOCK_isMeta hj))

theorem setLeaf_used (h : s.Wf) (hne : s.blockAddr i bn ≠ 0) (c : Bytes) {b : Nat}
    (hb : b < s.sb.size) : (s.setLeaf (s.blockAddr i bn) c).used b = s.used b :=
  congrArg (·.bit (b % BPB)) (setLeaf_disk_meta h hne c (h.sbWf.BBLOCK_isMeta hb))

theorem setLeaf_node (h : s.Wf) (hne : s.blockAddr i bn ≠ 0) (c : Bytes) {k : Nat × Fin NADDRS}
    {js : List Nat} (hp : blockShape.Path k js) :
    (s.setLeaf (s.blockAddr i bn) c).forest.node k js = s.forest.node k js := by
  refine Forest.node_congr ?_ (fun js' j hp' hne' => ?_) hp
  · refine root_congr rfl fun hi => ?_
    rw [view_congr (setLeaf_dinode h hne c hi) rfl]
    exact ⟨rfl, rfl⟩
  · rw [forest_child, forest_child]
    exact congrArg (·.word j) (setBlock_disk_ne s c (h.table_ne_blockAddr hp' hne'))

theorem setLeaf_blockAddr (h : s.Wf) (hne : s.blockAddr i bn ≠ 0) (c : Bytes) (j bm : Nat) :
    (s.setLeaf (s.blockAddr i bn) c).blockAddr j bm = s.blockAddr j bm := by
  by_cases hbm : bm < MAXFILE
  · rw [blockAddr_of_lt hbm, blockAddr_of_lt hbm, setLeaf_node h hne c (blockPath_path hbm j)]
  · simp [blockAddr, hbm]

theorem setLeaf_extend (h : s.Wf) (hne : s.blockAddr i bn ≠ 0) (c : Bytes) :
    Extend s (s.setLeaf (s.blockAddr i bn) c) where
  sb := rfl
  devsw := rfl
  outstanding := rfl
  inode := fun _ => rfl
  dinode := fun _ hj => setLeaf_dinode h hne c hj
  used := fun _ hlt hb => (setLeaf_used h hne c hlt).trans hb
  node := fun _ _ hp _ => setLeaf_node h hne c hp

theorem setLeaf_wf (h : s.Wf) (hne : s.blockAddr i bn ≠ 0) (c : Bytes) :
    (s.setLeaf (s.blockAddr i bn) c).Wf := by
  have hview : ∀ j < s.sb.ninodes, (s.setLeaf (s.blockAddr i bn) c).view j = s.view j :=
    fun j hj => view_congr (setLeaf_dinode h hne c hj) rfl
  refine h.of_subtree rfl (setLeaf_disk_meta h hne c (.inr (.inl rfl)))
    (fun b hlt hb _ => (setLeaf_extend h hne c).used b hlt hb) (fun _ _ hp _ => setLeaf_node h hne c hp) h.cacheInj h.cacheRange ?_
  intro j hj
  have hlt : j < s.sb.ninodes := hj.1
  unfold Allocated at hj
  rw [hview j hlt] at hj ⊢
  exact h.sizeLe j hj

theorem setLeaf_block (h : s.Wf) (hne : s.blockAddr i bn ≠ 0) (c : Bytes) (j bm : Nat) :
    (s.setLeaf (s.blockAddr i bn) c).block j bm = if j = i ∧ bm = bn then c else s.block j bm := by
  unfold block
  rw [setLeaf_blockAddr h hne]
  split
  · next h0 =>
    rw [if_neg]
    rintro ⟨rfl, rfl⟩
    exact hne h0
  · next hne' =>
    split
    · next heq =>
      obtain ⟨rfl, rfl⟩ := heq
      exact setBlock_disk_same s _ c
    · next hother =>
      refine setBlock_disk_ne s c fun heq => hother ?_
      obtain ⟨rfl, rfl⟩ := h.blockAddr_inj hne' (UInt32.toNat_inj.mp heq)
      exact ⟨rfl, rfl⟩

end SetLeaf

theorem setLeaf_byte {s : Fs} {i bn : Nat} (h : s.Wf) (hne : s.blockAddr i bn ≠ 0) (c : Bytes)
    (j p : Nat) : (s.setLeaf (s.blockAddr i bn) c).byte j p =
      if j = i ∧ p / BSIZE = bn then c (p % BSIZE) else s.byte j p := by
  unfold byte
  rw [setLeaf_block h hne]
  split <;> rfl

/-! ## Writing a range -/

/-- The bytes `[off, off + m)` of file `i` are in blocks of their own and are those
    of `src`, every other byte of every file is as before. -/
structure Written (s s' : Fs) (i off m : Nat) (src : Bytes) : Prop extends Extend s s' where
  byte : ∀ j p, s'.byte j p = if j = i then (s.byte i).splice off m src p else s.byte j p
  mapped : ∀ p, off ≤ p → p < off + m → s'.blockAddr i (p / BSIZE) ≠ 0

theorem Written.nothing {s s' : Fs} (g : Grow s s') (i off : Nat) (src : Bytes) :
    Written s s' i off 0 src := by
  refine ⟨g.toExtend, fun j p => ?_, fun p h1 h2 => absurd h2 (not_lt.mpr h1)⟩
  have hno : ¬ (off ≤ p ∧ p < off + 0) := by omega
  rw [g.byte, Bytes.splice, if_neg hno]
  split
  · next h => rw [h]
  · rfl

/-- Two ranges that follow one another. -/
theorem Written.append {s t u : Fs} {i off m m' : Nat} {src : Bytes}
    (h : Written s t i off m src) (h' : Written t u i (off + m) m' fun j => src (m + j)) :
    Written s u i off (m + m') src := by
  refine ⟨h.toExtend.trans h'.toExtend, fun j p => ?_, fun p h1 h2 => ?_⟩
  swap
  · by_cases hp : p < off + m
    · have hne := h.mapped p h1 hp
      rw [h'.blockAddr hne]
      exact hne
    · exact h'.mapped p (not_lt.mp hp) (by omega)
  rw [h'.byte]
  split
  · next hj =>
    subst hj
    simp only [Bytes.splice]
    rw [h.byte, if_pos rfl]
    simp only [Bytes.splice]
    by_cases h1 : off ≤ p ∧ p < off + m
    · rw [if_neg (by omega), if_pos h1, if_pos (by omega)]
    · by_cases h2 : off + m ≤ p ∧ p < off + m + m'
      · rw [if_pos h2, if_pos (by omega)]
        congr 1
        omega
      · rw [if_neg h2, if_neg h1, if_neg (by omega)]
  · next hj => rw [h.byte, if_neg hj]

/-- One block's share of a range: the bytes from `off` on that lie in its block. -/
theorem setLeaf_written {s : Fs} {i off m : Nat} (src : Bytes) (h : s.Wf)
    (hne : s.blockAddr i (off / BSIZE) ≠ 0) (hm : m ≤ BSIZE - off % BSIZE) :
    Written s (s.setLeaf (s.blockAddr i (off / BSIZE))
      ((s.disk (s.blockAddr i (off / BSIZE)).toNat).splice (off % BSIZE) m src)) i off m src := by
  refine ⟨setLeaf_extend h hne _, fun j p => ?_, fun p h1 h2 => ?_⟩
  swap
  · have hblk : p / BSIZE = off / BSIZE := by
      simp only [BSIZE] at *
      omega
    rw [hblk, setLeaf_blockAddr h hne]
    exact hne
  rw [setLeaf_byte h hne]
  have hold : s.block i (off / BSIZE) = s.disk (s.blockAddr i (off / BSIZE)).toNat := if_neg hne
  by_cases hj : j = i
  · subst hj
    have hout : p / BSIZE ≠ off / BSIZE → ¬ (off ≤ p ∧ p < off + m) := by
      simp only [BSIZE] at *
      omega
    have hin : p / BSIZE = off / BSIZE →
        ((off % BSIZE ≤ p % BSIZE ∧ p % BSIZE < off % BSIZE + m) ↔ (off ≤ p ∧ p < off + m)) ∧
          p % BSIZE - off % BSIZE = p - off := by
      simp only [BSIZE] at *
      omega
    simp only [true_and, if_true, Bytes.splice, byte]
    by_cases hblk : p / BSIZE = off / BSIZE
    · simp only [hblk, if_true, (hin hblk).1, (hin hblk).2, hold]
    · rw [if_neg hblk, if_neg (hout hblk)]
  · simp [hj]

end Fs

/-! ## Loops -/

section Loops

variable {E : Stop → Prop} {I : Fs → Prop} {ip : InodePtr} {i : Nat}

/-- `I` survives what `bmap` does for the blocks of the range `[off, off + m)`. -/
def RangeStep (I : Fs → Prop) (ip : InodePtr) (i off m : Nat) : Prop :=
  ∀ bn, off / BSIZE ≤ bn → bn * BSIZE < off + m → BmapStep I ip i bn

/-- `I` survives storing in the data blocks of the range `[off, off + m)`. -/
def LeafStep (I : Fs → Prop) (i off m : Nat) : Prop :=
  ∀ t bn c, off / BSIZE ≤ bn → bn * BSIZE < off + m → t.Wf → I t → t.blockAddr i bn ≠ 0 →
    I (t.setLeaf (t.blockAddr i bn) c)

/-- For the blocks of the range `[off, off + m)` `bmap` returns, and `I` is kept. -/
def RangeKeeps (E : Stop → Prop) (I : Fs → Prop) (ip : InodePtr) (i off m : Nat) : Prop :=
  ∀ bn, 0 < m → off / BSIZE ≤ bn → bn * BSIZE < off + m → ∀ t : Fs, t.Wf → t.Caches ip i → t.Allocated i → I t →
    wp (bmap ip bn) (fun a u => I u ∧ u.Wf ∧ Fs.Grow t u ∧ a ≠ 0 ∧ u.blockAddr i bn = a) E t

theorem RangeStep.keeps {s : Fs} {off m : Nat} (hstep : RangeStep I ip i off m) (hout : E .ballocOutOfBlocks)
    (hmax : off + m ≤ MAXFILE * BSIZE) (hlog : MayLog E s) :
    RangeKeeps E (fun t => I t ∧ t.log.outstanding = s.log.outstanding) ip i off m := by
  intro bn _ hlo hhi t hwf hip hal hI
  have hbn : bn < MAXFILE := Nat.lt_of_mul_lt_mul_right (hhi.trans_le hmax)
  refine (wp_bmap hout hbn (hstep bn hlo hhi) hwf hip hal (hlog.congr hI.2) hI.1).post ?_
  rintro a u ⟨hIu, hwfu, g, hne, haddr, -⟩
  exact ⟨⟨hIu, g.outstanding.trans hI.2⟩, hwfu, g, hne, haddr⟩

theorem RangeKeeps.next {off m r : Nat} (h : RangeKeeps E I ip i off (m + r)) : RangeKeeps E I ip i (off + m) r :=
  fun bn _ hlo hhi => h bn (by omega) ((Nat.div_le_div_right (Nat.le_add_right off m)).trans hlo) (by omega)

/-- One round of the loops stays in the block of `off`. -/
theorem exists_round {n tot : Nat} (off : Nat) (htot : tot < n) :
    ∃ m, m = min (n - tot) (BSIZE - off % BSIZE) ∧ 0 < m ∧ n - tot = m + (n - (tot + m)) ∧
      off / BSIZE * BSIZE < off + (n - tot) := by
  refine ⟨_, rfl, ?_, ?_, ?_⟩ <;> unfold BSIZE <;> omega

theorem wp_readLoop (n : Nat) :
    ∀ (fuel tot off : Nat) (s : Fs), n - tot ≤ fuel → RangeKeeps E I ip i off (n - tot) →
      s.Wf → s.Caches ip i → s.Allocated i → I s →
      wp (readLoop ip n fuel tot off) (fun bs s' => bs = (s.byte i).slice off (n - tot) ∧
        I s' ∧ s'.Wf ∧ Fs.Grow s s') E s := by
  intro fuel
  induction fuel with
  | zero =>
    intro tot off s hfuel _ hwf _ _ hI
    have h0 : n - tot = 0 := by omega
    simp only [readLoop, wp_pure, h0]
    exact ⟨rfl, hI, hwf, .refl s⟩
  | succ fuel ih =>
    intro tot off s hfuel hrange hwf hip hal hI
    simp only [readLoop]
    by_cases htot : tot < n
    · obtain ⟨m, hm, hpos, hrest, hfirst⟩ := exists_round off htot
      simp only [if_pos htot, wp_bind, wp_pure, ← hm]
      refine (hrange _ (by omega) le_rfl hfirst s hwf hip hal hI).post ?_
      rintro a t ⟨hIt, hwft, g, hne, rfl⟩
      rw [wp_bread (hwft.blockAddr_lt hne)]
      refine (ih (tot + m) (off + m) t (by omega) (hrest ▸ hrange).next hwft (g.caches hip)
        (g.allocated hwf.cacheInj hal) hIt).post ?_
      rintro bs u ⟨rfl, hIu, hwfu, g'⟩
      refine ⟨?_, hIu, hwfu, g.trans g'⟩
      rw [hrest, Bytes.slice_append, g.byte]
      congr 1
      have hblock : t.disk (t.blockAddr i (off / BSIZE)).toNat = t.block i (off / BSIZE) :=
        (if_neg hne).symm
      rw [hblock, g.block]
      refine Bytes.slice_congr fun k hk => ?_
      have hdiv : (off + k) / BSIZE = off / BSIZE := by simp only [BSIZE] at *; omega
      have hmod : (off + k) % BSIZE = off % BSIZE + k := by simp only [BSIZE] at *; omega
      unfold Fs.byte
      rw [hdiv, hmod]
    · have h0 : n - tot = 0 := by omega
      simp only [if_neg htot, wp_pure, h0]
      exact ⟨rfl, hI, hwf, .refl s⟩

theorem wp_writeLoop (hwrite : ∀ t, I t → MayWrite E t.log) (src : Bytes) (n : Nat) :
    ∀ (fuel tot off : Nat) (s : Fs), n - tot ≤ fuel → RangeKeeps E I ip i off (n - tot) →
      LeafStep I i off (n - tot) → s.Wf → s.Caches ip i → s.Allocated i → I s →
      wp (writeLoop ip src n fuel tot off) (fun r s' => r = off + (n - tot) ∧ I s' ∧ s'.Wf ∧
        Fs.Written s s' i off (n - tot) fun j => src (tot + j)) E s := by
  intro fuel
  induction fuel with
  | zero =>
    intro tot off s hfuel _ _ hwf _ _ hI
    have h0 : n - tot = 0 := by omega
    simp only [writeLoop, wp_pure, h0]
    exact ⟨rfl, hI, hwf, .nothing (.refl s) ..⟩
  | succ fuel ih =>
    intro tot off s hfuel hrange hleaf hwf hip hal hI
    simp only [writeLoop]
    by_cases htot : tot < n
    · obtain ⟨m, hm, hpos, hrest, hfirst⟩ := exists_round off htot
      have hmono : off / BSIZE ≤ (off + m) / BSIZE := Nat.div_le_div_right (Nat.le_add_right off m)
      have hleaf' : LeafStep I i (off + m) (n - (tot + m)) := fun t bn c hlo hhi =>
        hleaf t bn c (hmono.trans hlo) (by omega)
      simp only [if_pos htot, wp_bind, ← hm]
      refine (hrange _ (by omega) le_rfl hfirst s hwf hip hal hI).post ?_
      rintro a t ⟨hIt, hwft, g, hne, rfl⟩
      rw [wp_bread (hwft.blockAddr_lt hne), wp_bmodify]
      refine wp_logWrite (hwrite t hIt) fun _ => ?_
      have hw := Fs.setLeaf_written (fun j => src (tot + j)) hwft hne (hm.le.trans (min_le_right _ _))
      have hIu := hleaf t _ ((t.disk (t.blockAddr i (off / BSIZE)).toNat).splice (off % BSIZE) m
        fun j => src (tot + j)) le_rfl hfirst hwft hIt hne
      refine (ih (tot + m) (off + m) _ (by omega) (hrest ▸ hrange).next hleaf' (Fs.setLeaf_wf hwft hne _)
        (hw.caches (g.caches hip)) (hw.allocated hwft.cacheInj (g.allocated hwf.cacheInj hal)) hIu).post ?_
      rintro r u ⟨rfl, hI', hwf', hw'⟩
      refine ⟨by omega, hI', hwf', ?_⟩
      have hw0 : Fs.Written s _ i off (0 + m) fun j => src (tot + j) :=
        (Fs.Written.nothing g i off fun j => src (tot + j)).append (by simpa using hw)
      rw [Nat.zero_add] at hw0
      rw [hrest]
      refine hw0.append ?_
      simpa only [Nat.add_assoc] using hw'
    · have h0 : n - tot = 0 := by omega
      simp only [if_neg htot, wp_pure, h0]
      exact ⟨rfl, hI, hwf, .nothing (.refl s) ..⟩

end Loops

end Xv6
