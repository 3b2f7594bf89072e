-- SUMMARY: The on-disk format: constants, superblock, inodes packed into blocks, and the disk layout.
import Mathlib.Data.Fintype.Basic
import Mathlib.Data.UInt
import Xv6.Base.Bytes

/-! # On-disk format

Constants and structures of `fs.h`, `param.h` and `stat.h`. A block is a byte
array of which the code only touches the first `BSIZE` bytes.
-/

namespace Xv6

/-! ## Constants -/

def BSIZE : Nat := 512
abbrev NDIRECT : Nat := 10
def NINDIRECT : Nat := BSIZE / 4
def NDOUBINDIRECT : Nat := NINDIRECT * NINDIRECT
def NTRIPINDIRECT : Nat := NDOUBINDIRECT * NINDIRECT
def MAXFILE : Nat := NDIRECT + NINDIRECT + NDOUBINDIRECT + NTRIPINDIRECT
/-- Entries of `addrs`: direct blocks and the three indirect tables. -/
abbrev NADDRS : Nat := NDIRECT + 3
/-- Inodes per block; a `struct dinode` takes 64 bytes. -/
def IPB : Nat := BSIZE / 64
/-- Bitmap bits per block. -/
def BPB : Nat := BSIZE * 8

abbrev NINODE : Nat := 50
def NDEV : Nat := 10
def MAXOPBLOCKS : Nat := 10
def LOGSIZE : Nat := MAXOPBLOCKS * 3
def NBUF : Nat := MAXOPBLOCKS * 3
def FSSIZE : Nat := 40000

theorem lt_NADDRS {bn : Nat} (h : bn < NDIRECT) : bn < NADDRS := h.trans (by decide)

instance (priority := high) : NeZero NADDRS := ⟨by decide⟩
instance : NeZero NINODE := ⟨by decide⟩

abbrev T_DIR : Int16 := 1
abbrev T_FILE : Int16 := 2
abbrev T_DEV : Int16 := 3

/-- Block number of the superblock. -/
def SBLOCK : Nat := 1

/-! ## Superblock -/

structure Superblock where
  size : Nat
  nblocks : Nat
  ninodes : Nat
  nlog : Nat
  logstart : Nat
  inodestart : Nat
  bmapstart : Nat
  deriving DecidableEq

/-- `memmove(sb, bp->data, sizeof(*sb))`. -/
def Superblock.ofBytes (b : Bytes) : Superblock where
  size := (b.word 0).toNat
  nblocks := (b.word 1).toNat
  ninodes := (b.word 2).toNat
  nlog := (b.word 3).toNat
  logstart := (b.word 4).toNat
  inodestart := (b.word 5).toNat
  bmapstart := (b.word 6).toNat

namespace Superblock

/-- Block containing inode `i`. -/
def IBLOCK (sb : Superblock) (i : Nat) : Nat := i / IPB + sb.inodestart

/-- Block of the free map containing the bit for block `b`. -/
def BBLOCK (sb : Superblock) (b : Nat) : Nat := b / BPB + sb.bmapstart

/-- Boot block, superblock, log, inode blocks and free map. -/
def IsMeta (sb : Superblock) (b : Nat) : Prop :=
  b = 0 ∨ b = SBLOCK ∨ (sb.logstart ≤ b ∧ b < sb.logstart + sb.nlog) ∨
  (sb.inodestart ≤ b ∧ b < sb.inodestart + (sb.ninodes / IPB + 1)) ∨
  (sb.bmapstart ≤ b ∧ b < sb.bmapstart + (sb.size / BPB + 1))

instance (sb : Superblock) : DecidablePred sb.IsMeta := fun _ => by unfold IsMeta; infer_instance

/-- The regions follow one another on the disk in the order `mkfs` lays them out. -/
structure Wf (sb : Superblock) : Prop where
  sizeLe : sb.size ≤ FSSIZE
  logStart : 2 ≤ sb.logstart
  inodeStart : sb.logstart + sb.nlog ≤ sb.inodestart
  bmapStart : sb.inodestart + (sb.ninodes / IPB + 1) ≤ sb.bmapstart
  bmapEnd : sb.bmapstart + (sb.size / BPB + 1) ≤ sb.size

variable {sb : Superblock}

theorem Wf.IBLOCK_isMeta (_ : sb.Wf) {i : Nat} (hi : i < sb.ninodes) : sb.IsMeta (sb.IBLOCK i) := by
  simp only [IsMeta, IBLOCK, SBLOCK, IPB, BSIZE]
  omega

theorem Wf.BBLOCK_isMeta (_ : sb.Wf) {b : Nat} (hb : b < sb.size) : sb.IsMeta (sb.BBLOCK b) := by
  simp only [IsMeta, BBLOCK, SBLOCK, BPB, BSIZE]
  omega

/-- Inode blocks and free map blocks do not overlap. -/
theorem Wf.IBLOCK_ne_BBLOCK (h : sb.Wf) {i b : Nat} (hi : i < sb.ninodes) :
    sb.IBLOCK i ≠ sb.BBLOCK b := by
  have := h.bmapStart
  simp only [IBLOCK, BBLOCK, IPB, BPB, BSIZE] at *
  omega

theorem Wf.SBLOCK_ne_IBLOCK (h : sb.Wf) (i : Nat) : SBLOCK ≠ sb.IBLOCK i := by
  have := h.logStart
  have := h.inodeStart
  simp only [IBLOCK, SBLOCK, IPB, BSIZE]
  omega

theorem Wf.SBLOCK_ne_BBLOCK (h : sb.Wf) (b : Nat) : SBLOCK ≠ sb.BBLOCK b := by
  have := h.logStart
  have := h.inodeStart
  have := h.bmapStart
  simp only [BBLOCK, SBLOCK, BPB, IPB, BSIZE] at *
  omega

theorem Wf.isMeta_lt (h : sb.Wf) {b : Nat} (hb : sb.IsMeta b) : b < sb.size := by
  have := h.logStart
  have := h.inodeStart
  have := h.bmapStart
  have := h.bmapEnd
  simp only [IsMeta, SBLOCK, BPB, IPB, BSIZE] at *
  omega

theorem Wf.isMeta_lt_FSSIZE (h : sb.Wf) {b : Nat} (hb : sb.IsMeta b) : b < FSSIZE :=
  (h.isMeta_lt hb).trans_le h.sizeLe

end Superblock

/-- The superblock `mkfs` writes. -/
def mkfsSuperblock : Superblock where
  size := FSSIZE
  nblocks := FSSIZE - (2 + LOGSIZE + (200 / IPB + 1) + (FSSIZE / BPB + 1))
  ninodes := 200
  nlog := LOGSIZE
  logstart := 2
  inodestart := 2 + LOGSIZE
  bmapstart := 2 + LOGSIZE + (200 / IPB + 1)

theorem mkfsSuperblock_wf : mkfsSuperblock.Wf := by
  constructor <;> decide

/-! ## On-disk inodes -/

structure Dinode where
  type : Int16
  major : Int16
  minor : Int16
  nlink : Int16
  size : UInt32
  addrs : Fin NADDRS → UInt32
  deriving DecidableEq

namespace Dinode

/-- `memset(dip, 0, sizeof(*dip))`. -/
def blank : Dinode := ⟨0, 0, 0, 0, 0, fun _ => 0⟩

/-- The 64 bytes of a `struct dinode`, which has no padding. -/
def bytes (d : Dinode) : Bytes := fun j =>
  if j < 2 then Bytes.digit d.type.toUInt16.toNat j
  else if j < 4 then Bytes.digit d.major.toUInt16.toNat (j - 2)
  else if j < 6 then Bytes.digit d.minor.toUInt16.toNat (j - 4)
  else if j < 8 then Bytes.digit d.nlink.toUInt16.toNat (j - 6)
  else if j < 12 then Bytes.digit d.size.toNat (j - 8)
  else if h : (j - 12) / 4 < NADDRS then Bytes.digit (d.addrs ⟨(j - 12) / 4, h⟩).toNat ((j - 12) % 4)
  else 0

def ofBytes (b : Bytes) : Dinode where
  type := (b.half 0).toInt16
  major := (b.half 2).toInt16
  minor := (b.half 4).toInt16
  nlink := (b.half 6).toInt16
  size := b.word 2
  addrs := fun k => b.word (3 + k)

theorem ofBytes_bytes (d : Dinode) : ofBytes d.bytes = d := by
  have hsize : Bytes.word d.bytes 2 = d.size := by
    apply Bytes.word_of_digits
    intro k hk
    have h1 : ¬ 4 * 2 + k < 2 := by omega
    have h2 : ¬ 4 * 2 + k < 4 := by omega
    have h3 : ¬ 4 * 2 + k < 6 := by omega
    have h4 : ¬ 4 * 2 + k < 8 := by omega
    have h5 : 4 * 2 + k < 12 := by omega
    simp only [bytes, h1, h2, h3, h4, h5, if_false, if_true]
    congr 1
    omega
  have haddrs : ∀ i : Fin NADDRS, Bytes.word d.bytes (3 + i) = d.addrs i := by
    intro i
    apply Bytes.word_of_digits
    intro k hk
    have h1 : ¬ 4 * (3 + (i : Nat)) + k < 2 := by omega
    have h2 : ¬ 4 * (3 + (i : Nat)) + k < 4 := by omega
    have h3 : ¬ 4 * (3 + (i : Nat)) + k < 6 := by omega
    have h4 : ¬ 4 * (3 + (i : Nat)) + k < 8 := by omega
    have h5 : ¬ 4 * (3 + (i : Nat)) + k < 12 := by omega
    have hdiv : (4 * (3 + (i : Nat)) + k - 12) / 4 = i := by omega
    have hmod : (4 * (3 + (i : Nat)) + k - 12) % 4 = k := by omega
    simp only [bytes, h1, h2, h3, h4, h5, if_false, hdiv, hmod, i.isLt, dif_pos, Fin.eta]
  have htype : Bytes.half d.bytes 0 = d.type.toUInt16 := Bytes.half_of_digits rfl rfl
  have hmajor : Bytes.half d.bytes 2 = d.major.toUInt16 := Bytes.half_of_digits rfl rfl
  have hminor : Bytes.half d.bytes 4 = d.minor.toUInt16 := Bytes.half_of_digits rfl rfl
  have hnlink : Bytes.half d.bytes 6 = d.nlink.toUInt16 := Bytes.half_of_digits rfl rfl
  simp only [ofBytes, htype, hmajor, hminor, hnlink, hsize, haddrs]
  simp

/-- `*((struct dinode*)b + k)`. -/
def get (b : Bytes) (k : Nat) : Dinode := ofBytes fun j => b (64 * k + j)

/-- `*((struct dinode*)b + k) = d`. -/
def put (b : Bytes) (k : Nat) (d : Dinode) : Bytes :=
  fun j => if j / 64 = k then d.bytes (j % 64) else b j

theorem ofBytes_congr {b c : Bytes} (h : ∀ j < 64, b j = c j) : ofBytes b = ofBytes c := by
  have hhalf : ∀ o, o < 63 → Bytes.half b o = Bytes.half c o := by
    intro o ho
    unfold Bytes.half
    rw [h o (by omega), h (o + 1) (by omega)]
  have hword : ∀ i, i < 16 → Bytes.word b i = Bytes.word c i := by
    intro i hi
    apply Bytes.word_congr
    intro j hj
    exact h j (by omega)
  unfold ofBytes
  rw [hhalf 0 (by omega), hhalf 2 (by omega), hhalf 4 (by omega), hhalf 6 (by omega),
    hword 2 (by omega)]
  congr 1
  funext k
  have hk := k.isLt
  simp only [NADDRS, NDIRECT] at hk
  exact hword (3 + k) (by omega)

theorem get_put_same (b : Bytes) (k : Nat) (d : Dinode) : get (put b k d) k = d := by
  refine (ofBytes_congr fun j hj => ?_).trans (ofBytes_bytes d)
  have hdiv : (64 * k + j) / 64 = k := by omega
  have hmod : (64 * k + j) % 64 = j := by omega
  simp [put, hdiv, hmod]

theorem get_put_ne (b : Bytes) {k l : Nat} (d : Dinode) (h : l ≠ k) :
    get (put b k d) l = get b l := by
  refine ofBytes_congr fun j hj => ?_
  have hdiv : (64 * l + j) / 64 ≠ k := by omega
  simp [put, hdiv]

end Dinode

end Xv6
