-- SUMMARY: A disk as mkfs lays it out that holds one inode without blocks.
import Xv6.FileSystem.Ownership

/-! # A concrete disk

`image d` is a disk with the superblock and the free map that `mkfs` writes and
one inode `d`, number 1, that is also in the inode cache. Its block pointers are
all zero, so the file is empty or one hole. It satisfies the ownership invariant
(`image_wf`) and serves as the starting point of concrete runs.
-/

namespace Xv6

/-- `memmove(buf, &sb, sizeof(sb))`. -/
def Superblock.bytes (sb : Superblock) : Bytes :=
  ((((((Bytes.zero.setWord 0 (UInt32.ofNat sb.size)).setWord 1 (UInt32.ofNat sb.nblocks)).setWord 2
    (UInt32.ofNat sb.ninodes)).setWord 3 (UInt32.ofNat sb.nlog)).setWord 4
    (UInt32.ofNat sb.logstart)).setWord 5 (UInt32.ofNat sb.inodestart)).setWord 6
    (UInt32.ofNat sb.bmapstart)

theorem Superblock.ofBytes_bytes : Superblock.ofBytes mkfsSuperblock.bytes = mkfsSuperblock := by
  simp only [Superblock.ofBytes, Superblock.bytes, Bytes.word_setWord]
  decide

/-- The free map block of the first `BPB` blocks: the metadata is marked. -/
def mkfsBitmap : Bytes := fun j => if j < 8 then 255 else if j = 8 then 15 else 0

def image (d : Dinode) : Fs where
  sb := mkfsSuperblock
  disk := fun b =>
    if b = SBLOCK then mkfsSuperblock.bytes
    else if b = mkfsSuperblock.IBLOCK 1 then Dinode.put Bytes.zero 1 d
    else if b = mkfsSuperblock.BBLOCK 0 then mkfsBitmap
    else Bytes.zero
  icache := fun ip =>
    if ip = 0 then { d with inum := 1, ref := 1, locked := false, valid := true }
    else { Dinode.blank with inum := 0, ref := 0, locked := false, valid := false }
  log := { size := LOGSIZE, outstanding := 0, lh := [], writes := [] }
  devsw := fun _ => ⟨none, none⟩

namespace image

variable (d : Dinode)

theorem caches_iff (ip : InodePtr) (i : Nat) : (image d).Caches ip i ↔ ip = 0 ∧ i = 1 := by
  unfold Fs.Caches image
  by_cases h : ip = 0
  · simp [h, eq_comm]
  · simp [h]

theorem eq_zero_of_ref {ip : InodePtr} (h : 0 < ((image d).icache ip).ref) : ip = 0 := by
  by_contra hne
  simp [image, hne] at h

theorem cacheInj : (image d).CacheInj := by
  intro ip jp hip hjp _
  rw [eq_zero_of_ref d hip, eq_zero_of_ref d hjp]

theorem get_zero (k : Nat) : Dinode.get Bytes.zero k = Dinode.blank := by
  have hword : ∀ i, Bytes.word (fun j => Bytes.zero (64 * k + j)) i = 0 := Bytes.word_zero
  simp only [Dinode.get, Dinode.ofBytes, hword]
  rfl

theorem dinode_eq {i : Nat} (hi : i < 200) :
    (image d).dinode i = if i = 1 then d else Dinode.blank := by
  have h1 : mkfsSuperblock.IBLOCK i ≠ SBLOCK := (mkfsSuperblock_wf.SBLOCK_ne_IBLOCK i).symm
  have h2 : mkfsSuperblock.IBLOCK i ≠ mkfsSuperblock.BBLOCK 0 :=
    mkfsSuperblock_wf.IBLOCK_ne_BBLOCK hi
  have hdisk : (image d).disk (mkfsSuperblock.IBLOCK i) =
      if mkfsSuperblock.IBLOCK i = mkfsSuperblock.IBLOCK 1 then Dinode.put Bytes.zero 1 d
      else Bytes.zero := by
    simp [image, h1, h2]
  have hslot : mkfsSuperblock.IBLOCK i = mkfsSuperblock.IBLOCK 1 → i % IPB = i := by
    simp only [Superblock.IBLOCK, IPB, BSIZE]
    omega
  unfold Fs.dinode
  change Dinode.get ((image d).disk (mkfsSuperblock.IBLOCK i)) (i % IPB) = _
  rw [hdisk]
  split
  · next h =>
    rw [hslot h]
    split
    · next hone => rw [hone, Dinode.get_put_same]
    · next hne => rw [Dinode.get_put_ne _ _ hne, get_zero]
  · next h =>
    rw [get_zero, if_neg]
    rintro rfl
    exact h rfl

theorem view_eq {i : Nat} (hi : i < 200) : (image d).view i = if i = 1 then d else Dinode.blank := by
  by_cases h1 : i = 1
  · have hc : (image d).Caches 0 i := (caches_iff d 0 i).mpr ⟨rfl, h1⟩
    rw [Fs.view_of_caches (cacheInj d) hc, if_pos h1]
    rfl
  · rw [Fs.view_of_not_cached fun ip hc => h1 ((caches_iff d ip i).mp hc).2, dinode_eq d hi]

theorem node_eq (haddrs : d.addrs = fun _ => 0) (k : Nat × Fin NADDRS) (js : List Nat) :
    (image d).forest.node k js = 0 := by
  have hroot : (image d).forest.root k = 0 := by
    unfold Fs.forest
    dsimp only
    split
    · next h =>
      rw [view_eq d h.1]
      split
      · rw [haddrs]
      · rfl
    · rfl
  unfold Forest.node
  rw [hroot, Forest.follow_zero]

theorem used_eq {b : Nat} (hb : b < BPB) : (image d).used b = mkfsBitmap.bit b := by
  have h0 : mkfsSuperblock.BBLOCK b = mkfsSuperblock.BBLOCK 0 := by
    simp only [Superblock.BBLOCK, BPB, BSIZE] at *
    omega
  unfold Fs.used
  change Bytes.bit ((image d).disk (mkfsSuperblock.BBLOCK b)) (b % BPB) = _
  rw [h0, Nat.mod_eq_of_lt hb]
  rfl

theorem isMeta_lt {b : Nat} (hb : mkfsSuperblock.IsMeta b) : b < 68 := by
  unfold Superblock.IsMeta at hb
  have e : mkfsSuperblock.logstart = 2 ∧ mkfsSuperblock.nlog = 30 ∧ mkfsSuperblock.inodestart = 32 ∧
      mkfsSuperblock.ninodes / IPB + 1 = 26 ∧ mkfsSuperblock.bmapstart = 58 ∧
      mkfsSuperblock.size / BPB + 1 = 10 ∧ SBLOCK = 1 := by decide
  obtain ⟨e1, e2, e3, e4, e5, e6, e7⟩ := e
  rw [e1, e2, e3, e4, e5, e6, e7] at hb
  omega

end image

/-- An empty regular file. -/
def emptyFile : Dinode := { Dinode.blank with type := T_FILE, nlink := 1 }

/-- A buffer whose blocks are all different. -/
def numbered : Bytes := fun j => UInt8.ofNat (j / BSIZE)

theorem image_wf {d : Dinode} (haddrs : d.addrs = fun _ => 0)
    (hsize : d.size.toNat ≤ MAXFILE * BSIZE) : (image d).Wf where
  sbWf := mkfsSuperblock_wf
  sbDisk := Superblock.ofBytes_bytes
  metaUsed := fun b hb => by
    have hlt := image.isMeta_lt hb
    have hbits : ∀ b < 68, mkfsBitmap.bit b = true := by decide
    rw [image.used_eq d (by simp only [BPB, BSIZE]; omega)]
    exact hbits b hlt
  owned := fun k js _ hne => absurd (image.node_eq d haddrs k js) hne
  unshared := fun k js _ _ _ _ _ hne => absurd (image.node_eq d haddrs k js) hne
  cacheInj := image.cacheInj d
  cacheRange := fun ip hip => by
    by_cases h0 : ip = 0
    · subst h0
      exact (by decide : 1 < 200)
    · simp [image, h0] at hip
  sizeLe := fun i hi => by
    rw [image.view_eq d hi.1]
    split
    · exact hsize
    · decide

end Xv6
