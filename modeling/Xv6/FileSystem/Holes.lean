-- SUMMARY: Holes: which blocks a call adds to a file, and reads outside of a transaction.
import Xv6.FileSystem.ReadWrite

/-! # Holes

A block of a file that is not there is a hole. `readi` fills the holes it meets,
which takes a transaction: outside of one it returns exactly when there is no hole
in the range it reads (`wp_readi_of_mapped`, `wp_readi_of_hole`), and then it
changes nothing.
-/

namespace Xv6

open Prog

namespace Fs

/-- There is no hole among the bytes `[off, off + m)` of file `i`. -/
def Mapped (s : Fs) (i off m : Nat) : Prop :=
  ∀ p, off ≤ p → p < off + m → s.blockAddr i (p / BSIZE) ≠ 0

/-! ## Nodes that are new -/

/-- The trees of `t` differ from those of `s` only on the way to blocks `bn` of
    file `i` with `B bn`. -/
def OnlyFor (s : Fs) (i : Nat) (B : Nat → Prop) (t : Fs) : Prop :=
  ∀ k js, blockShape.Path k js →
    (∀ bn, B bn → ¬ (k = (i, (blockPath bn).1) ∧ js <+: (blockPath bn).2)) →
    t.forest.node k js = s.forest.node k js

theorem OnlyFor.refl (s : Fs) (i : Nat) (B : Nat → Prop) : s.OnlyFor i B s := fun _ _ _ _ => rfl

theorem OnlyFor.graft {s t t' : Fs} {i bn a : Nat} {B : Nat → Prop} {ls : List Nat}
    (h : s.OnlyFor i B t) (hbn : B bn) (g : GraftStep t t' (i, (blockPath bn).1) ls a)
    (hls : ls <+: (blockPath bn).2) : s.OnlyFor i B t' := by
  intro k js hp hoff
  rw [g.graft.node_other hp, h k js hp hoff]
  intro heq
  obtain ⟨rfl, rfl⟩ := Prod.mk.inj heq
  exact hoff bn hbn ⟨rfl, hls⟩

/-- Other blocks are where they were. -/
theorem OnlyFor.blockAddr {s t : Fs} {i j bm : Nat} {B : Nat → Prop} (h : s.OnlyFor i B t)
    (hB : ∀ bn, B bn → bn < MAXFILE) (hbm : ¬ (j = i ∧ B bm)) : t.blockAddr j bm = s.blockAddr j bm := by
  by_cases hlt : bm < MAXFILE
  · rw [blockAddr_of_lt hlt, blockAddr_of_lt hlt]
    refine h _ _ (blockPath_path hlt j) fun bn hbn hpre => hbm ?_
    obtain ⟨hji, hslot⟩ := Prod.mk.inj hpre.1
    -- paths of data blocks in one tree are of one length
    have hlen : (blockPath bm).2.length = (blockPath bn).2.length := by
      rw [blockPath_length hlt, blockPath_length (hB bn hbn), hslot]
    have heq := blockPath_inj hlt (hB bn hbn) (Prod.ext hslot (hpre.2.eq_of_length hlen))
    exact ⟨hji, heq ▸ hbn⟩
  · simp [Fs.blockAddr, hlt]

end Fs

/-! ## The changes of a write -/

/-- Block `bn` has bytes of `[off, off + m)`. -/
def Touches (off m bn : Nat) : Prop := off / BSIZE ≤ bn ∧ bn * BSIZE < off + m

theorem Touches.exists_pos {off m bn : Nat} (h : Touches off m bn) (hm : 0 < m) :
    ∃ p, off ≤ p ∧ p < off + m ∧ p / BSIZE = bn := by
  unfold Touches at h
  refine ⟨max off (bn * BSIZE), le_max_left _ _, ?_, ?_⟩
  · omega
  · simp only [BSIZE] at *
    omega

theorem Touches.lt {off m bn : Nat} (h : Touches off m bn) (hle : off + m ≤ MAXFILE * BSIZE) :
    bn < MAXFILE := by
  unfold Touches at h
  simp only [BSIZE] at *
  omega

/-- What the loop of `writei` makes of `s`: for blocks `bn` with `B bn` of the inode
    `i` in `ip` it allocates roots and entries of tables, and stores in data blocks. -/
inductive Fs.Build (s : Fs) (ip : InodePtr) (i : Nat) (B : Nat → Prop) : Fs → Prop where
  | refl : Build s ip i B s
  | root {t : Fs} {bn a : Nat} (h : Build s ip i B t) (hbn : B bn) (hwf : t.Wf) (hip : t.Caches ip i)
      (hal : t.Allocated i) (h0 : (t.icache ip).addrs (blockPath bn).1 = 0) (ha : t.FirstFree a) :
      Build s ip i B (t.graftRoot ip (blockPath bn).1 a)
  | entry {t : Fs} {bn a j : Nat} {js : List Nat} (h : Build s ip i B t) (hbn : B bn) (hwf : t.Wf)
      (hpre : js ++ [j] <+: (blockPath bn).2) (hne : t.forest.node (i, (blockPath bn).1) js ≠ 0)
      (h0 : t.forest.node (i, (blockPath bn).1) (js ++ [j]) = 0) (ha : t.FirstFree a) :
      Build s ip i B (t.graftEntry (t.forest.node (i, (blockPath bn).1) js).toNat j a)
  | leaf {t : Fs} {bn : Nat} {c : Bytes} (h : Build s ip i B t) (hbn : B bn) (hwf : t.Wf)
      (hne : t.blockAddr i bn ≠ 0) : Build s ip i B (t.setLeaf (t.blockAddr i bn) c)

section Build

variable {s t : Fs} {ip : InodePtr} {i : Nat} {B : Nat → Prop}

theorem bmapStep_build {bn : Nat} (hbn : B bn) : BmapStep (s.Build ip i B) ip i bn where
  root := fun _ _ hwf hI hip hal h0 ha => .root hI hbn hwf hip hal h0 ha
  entry := fun _ _ _ _ hwf hI hpre hne h0 ha => .entry hI hbn hwf hpre hne h0 ha

theorem rangeStep_build {off m : Nat} : RangeStep (s.Build ip i (Touches off m)) ip i off m :=
  fun _ hlo hhi => bmapStep_build ⟨hlo, hhi⟩

theorem leafStep_build {off m : Nat} : LeafStep (s.Build ip i (Touches off m)) i off m :=
  fun _ _ _ hlo hhi hwf hI hne => .leaf hI ⟨hlo, hhi⟩ hwf hne

theorem Fs.Build.entry_step {bn a j : Nat} {js : List Nat} (hlt : bn < MAXFILE) (hwf : t.Wf)
    (hpre : js ++ [j] <+: (blockPath bn).2) (hne : t.forest.node (i, (blockPath bn).1) js ≠ 0)
    (h0 : t.forest.node (i, (blockPath bn).1) (js ++ [j]) = 0) (ha : t.FirstFree a) :
    GraftStep t (t.graftEntry (t.forest.node (i, (blockPath bn).1) js).toNat j a)
      (i, (blockPath bn).1) (js ++ [j]) a := by
  obtain ⟨ls, hls⟩ := hpre
  rw [Forest.node_concat_of_ne hne] at h0
  exact graftEntry_step hwf (hls ▸ blockPath_path hlt i).append_left hne h0 ha.lt ha.free

/-- Only the way to these blocks changes. -/
theorem Fs.Build.onlyFor (h : s.Build ip i B t) (hB : ∀ bn, B bn → bn < MAXFILE) : s.OnlyFor i B t := by
  induction h with
  | refl => exact .refl s i B
  | root _ hbn hwf hip hal h0 ha ih =>
    exact ih.graft hbn (graftRoot_step hwf hip hal h0 ha.lt ha.free) List.nil_prefix
  | entry _ hbn hwf hpre hne h0 ha ih => exact ih.graft hbn (entry_step (hB _ hbn) hwf hpre hne h0 ha) hpre
  | leaf _ _ hwf hne ih =>
    intro k js hp hoff
    rw [setLeaf_node hwf hne _ hp]
    exact ih k js hp hoff

/-- Other entries of the inode cache are not touched. -/
theorem Fs.Build.icache_ne (h : s.Build ip i B t) {jp : InodePtr} (hj : jp ≠ ip) :
    t.icache jp = s.icache jp := by
  induction h with
  | refl => rfl
  | root _ _ _ _ _ _ _ ih =>
    rw [← ih]
    exact setInode_icache_ne _ _ hj
  | entry _ _ _ _ _ _ _ ih => exact ih
  | leaf _ _ _ _ ih => exact ih

/-- The inode stays as it is when it has pointers for all of the blocks. -/
theorem Fs.Build.icache_of_slots (h : s.Build ip i B t)
    (hslots : ∀ bn, B bn → (s.icache ip).addrs (blockPath bn).1 ≠ 0) : t.icache = s.icache := by
  induction h with
  | refl => rfl
  | root _ hbn _ _ _ h0 _ ih =>
    rw [ih] at h0
    exact absurd h0 (hslots _ hbn)
  | entry _ _ _ _ _ _ _ ih => exact ih
  | leaf _ _ _ _ ih => exact ih

end Build

/-! ## Reading -/

section Reading

variable {s : Fs} {E : Stop → Prop} {ip : InodePtr} {i : Nat}

/-- For blocks that are there `bmap` is a lookup. -/
theorem Fs.Mapped.keeps {off m : Nat} (h : s.Mapped i off m) {I : Fs → Prop} (hI : ∀ t, I t → t.blockAddr = s.blockAddr) :
    RangeKeeps E I ip i off m := by
  intro bn hm hlo hhi t hwf hip hal ht
  obtain ⟨p, hle, hlt, rfl⟩ := Touches.exists_pos ⟨hlo, hhi⟩ hm
  have hne : t.blockAddr i (p / BSIZE) ≠ 0 := hI t ht ▸ h p hle hlt
  rw [wp_bmap_of_mapped hwf hip hal hne]
  exact ⟨ht, hwf, .refl t, hne, rfl⟩

theorem wp_readLoop_of_mapped (hwf : s.Wf) (hip : s.Caches ip i) (hal : s.Allocated i) (n : Nat)
    (fuel tot off : Nat) (hfuel : n - tot ≤ fuel) (hmap : s.Mapped i off (n - tot)) (Q : List UInt8 → Fs → Prop) :
    wp (readLoop ip n fuel tot off) Q E s ↔ Q ((s.byte i).slice off (n - tot)) s := by
  have hkeeps : RangeKeeps (fun _ => False) (· = s) ip i off (n - tot) := hmap.keeps fun t ht => by rw [ht]
  obtain ⟨bs, t, hrun, rfl, rfl, -⟩ := (wp_readLoop n fuel tot off s hfuel hkeeps hwf hip hal rfl).run_ok
  unfold wp
  rw [hrun]

/-- The stops of an allocation outside of a transaction. -/
def StopsOutside (E : Stop → Prop) : Prop :=
  E .tooBigTransaction ∧ E .logWriteOutsideOfTrans ∧ E .ballocOutOfBlocks

theorem wp_bmap_of_hole (hwf : s.Wf) (hip : s.Caches ip i) (hal : s.Allocated i) {bn : Nat}
    (hbn : bn < MAXFILE) (h0 : s.blockAddr i bn = 0) (hout : s.log.outstanding = 0)
    (hE : StopsOutside E) {Q : UInt32 → Fs → Prop} : wp (bmap ip bn) Q E s := by
  refine (wp_bmap hE.2.2 hbn (bmapStep_true ip i bn) hwf hip hal ⟨hE.1, .inr hE.2.1⟩ trivial).post ?_
  rintro a t ⟨-, -, -, -, -, hin⟩
  have := hin h0
  omega

theorem wp_readLoop_of_hole (hwf : s.Wf) (hip : s.Caches ip i) (hal : s.Allocated i)
    (hout : s.log.outstanding = 0) (hE : StopsOutside E) (n p : Nat)
    (h0 : s.blockAddr i (p / BSIZE) = 0) :
    ∀ (fuel tot off : Nat), n - tot ≤ fuel → off + (n - tot) ≤ MAXFILE * BSIZE →
      off ≤ p → p < off + (n - tot) →
      ∀ Q : List UInt8 → Fs → Prop, wp (readLoop ip n fuel tot off) Q E s := by
  intro fuel
  induction fuel with
  | zero =>
    intro tot off hfuel _ h1 h2
    omega
  | succ fuel ih =>
    intro tot off hfuel hmax h1 h2 Q
    have htot : tot < n := by omega
    obtain ⟨m, hm, hpos, -⟩ := exists_round off htot
    have hbn : off / BSIZE < MAXFILE := by
      simp only [BSIZE] at *
      omega
    simp only [readLoop, if_pos htot, wp_bind, wp_pure, ← hm]
    by_cases hne : s.blockAddr i (off / BSIZE) = 0
    · exact wp_bmap_of_hole hwf hip hal hbn hne hout hE
    · -- this block is there, so the hole is further on
      have hp : off + m ≤ p := by
        by_contra hlow
        have hsame : p / BSIZE = off / BSIZE := by
          simp only [BSIZE] at *
          omega
        exact hne (hsame ▸ h0)
      rw [wp_bmap_of_mapped hwf hip hal hne, wp_bread (hwf.blockAddr_lt hne)]
      exact ih (tot + m) (off + m) (by omega) (by omega) hp (by omega) _

/-- What `readi` returns for file `i`. -/
def Fs.readReply (s : Fs) (i off n : Nat) : Int × List UInt8 :=
  if (s.view i).size.toNat < off ∨ 2 ^ 32 ≤ off + n then (-1, [])
  else ((readLen (s.view i).size.toNat off n : Nat),
    (s.byte i).slice off (readLen (s.view i).size.toNat off n))

/-- Without holes in its range `readi` is a pure function of the file, in a
    transaction or not. -/
theorem wp_readi_of_mapped (hwf : s.Wf) (hip : s.Caches ip i) (hal : s.Allocated i)
    (hdev : (s.icache ip).type ≠ T_DEV) {off n : UInt32}
    (hmap : s.Mapped i off.toNat (readLen (s.view i).size.toNat off.toNat n.toNat))
    {Q : Int × List UInt8 → Fs → Prop} :
    wp (readi ip off n) Q E s ↔ Q (s.readReply i off.toNat n.toNat) s := by
  rw [wp_readi_iff hdev]
  unfold Fs.readReply
  rw [Fs.view_of_caches hwf.cacheInj hip] at hmap ⊢
  split
  · rfl
  · rw [wp_readLoop_of_mapped hwf hip hal _ _ 0 _ (by simp) (by simpa using hmap), Nat.sub_zero]

/-- With a hole in its range `readi` does not return outside of a transaction. -/
theorem wp_readi_of_hole (hwf : s.Wf) (hip : s.Caches ip i) (hal : s.Allocated i)
    (hdev : (s.icache ip).type ≠ T_DEV) {off n : UInt32}
    (hoff : off.toNat ≤ (s.view i).size.toNat) (hsum : off.toNat + n.toNat < 2 ^ 32)
    (hmap : ¬ s.Mapped i off.toNat (readLen (s.view i).size.toNat off.toNat n.toNat))
    (hout : s.log.outstanding = 0) (hE : StopsOutside E) {Q : Int × List UInt8 → Fs → Prop} :
    wp (readi ip off n) Q E s := by
  have hsize := hwf.sizeLe i hal
  simp only [Fs.Mapped, not_forall, not_not] at hmap
  obtain ⟨p, h1, h2, h0⟩ := hmap
  rw [Fs.view_of_caches hwf.cacheInj hip] at hoff hsize h2
  rw [wp_readi_iff hdev, if_neg (not_or.mpr ⟨not_lt.mpr hoff, not_le.mpr hsum⟩)]
  refine wp_readLoop_of_hole hwf hip hal hout hE _ p h0 _ 0 _ (by simp) ?_ h1 (by simpa using h2) _
  unfold readLen
  omega

end Reading

end Xv6
