-- SUMMARY: The block allocator (bzero, balloc, bfree) and the states it can lead to.
import Xv6.FileSystem.State

/-! # Blocks

The free map holds one bit for every block of the disk. `balloc` takes the first
clear bit and zeroes the block it stands for, `bfree` clears a bit.
-/

namespace Xv6

open Prog

/-! ## Source -/

def bzero (b : Nat) : FS Unit := do
  let _ ← bread b
  bmodify b fun _ => Bytes.zero
  logWrite b

/-- The inner loop of `balloc`: the first free bit of the free map block that
    starts with the bit of block `b`. -/
def ballocScan (sb : Superblock) (bp : Bytes) (b : Nat) : Option Nat :=
  (List.range BPB).find? fun bi => decide (b + bi < sb.size) && !bp.bit bi

/-- The body of the outer loop of `balloc`: mark and zero the block whose bit was
    found, or go on. -/
def ballocTake (bm b : Nat) (next : FS UInt32) : Option Nat → FS UInt32
  | some bi => do
    bmodify bm (·.setBit bi)
    logWrite bm
    bzero (b + bi)
    pure (UInt32.ofNat (b + bi))
  | none => next

/-- The outer loop of `balloc`, over the blocks `b` whose bits start a free map block. -/
def ballocFrom : List Nat → FS UInt32
  | [] => throw .ballocOutOfBlocks
  | b :: bs => do
    let s ← get
    let bp ← bread (s.sb.BBLOCK b)
    ballocTake (s.sb.BBLOCK b) b (ballocFrom bs) (ballocScan s.sb bp b)

/-- `for(b = 0; b < sb.size; b += BPB)`. -/
def bitmapStarts (sb : Superblock) : List Nat :=
  (List.range ((sb.size + (BPB - 1)) / BPB)).map (· * BPB)

def balloc : FS UInt32 := do
  let s ← get
  ballocFrom (bitmapStarts s.sb)

def readsb : FS Superblock := do
  let bp ← bread SBLOCK
  pure (Superblock.ofBytes bp)

def bfree (b : Nat) : FS Unit := do
  let sb ← readsb
  modify fun s => { s with sb := sb }
  let bp ← bread (sb.BBLOCK b)
  if bp.bit (b % BPB) then do
    bmodify (sb.BBLOCK b) (·.clearBit (b % BPB))
    logWrite (sb.BBLOCK b)
  else throw .freeingFreeBlock

/-! ## The free map -/

namespace Fs

/-- Block `b` is marked in the free map. -/
def used (s : Fs) (b : Nat) : Bool := (s.disk (s.sb.BBLOCK b)).bit (b % BPB)

/-- `log_write(b)` of a log that is not full. -/
def logged (s : Fs) (b : Nat) : Fs := { s with log := s.log.absorb b (s.disk b) }

/-- The state in which `balloc` returns block `a`. -/
def alloc (s : Fs) (a : Nat) : Fs :=
  (((s.setBlock (s.sb.BBLOCK a) ((s.disk (s.sb.BBLOCK a)).setBit (a % BPB))).logged
    (s.sb.BBLOCK a)).setBlock a Bytes.zero).logged a

/-- The state in which `bfree` of block `b` returns. -/
def free (s : Fs) (b : Nat) : Fs :=
  (s.setBlock (s.sb.BBLOCK b) ((s.disk (s.sb.BBLOCK b)).clearBit (b % BPB))).logged (s.sb.BBLOCK b)

@[simp] theorem logged_sb (s : Fs) (b : Nat) : (s.logged b).sb = s.sb := rfl
@[simp] theorem logged_disk (s : Fs) (b : Nat) : (s.logged b).disk = s.disk := rfl
@[simp] theorem logged_icache (s : Fs) (b : Nat) : (s.logged b).icache = s.icache := rfl
@[simp] theorem logged_devsw (s : Fs) (b : Nat) : (s.logged b).devsw = s.devsw := rfl
@[simp] theorem logged_outstanding (s : Fs) (b : Nat) :
    (s.logged b).log.outstanding = s.log.outstanding := rfl
@[simp] theorem logged_trace (s : Fs) (b : Nat) : (s.logged b).log.trace = b :: s.log.trace := rfl

@[simp] theorem alloc_sb (s : Fs) (a : Nat) : (s.alloc a).sb = s.sb := rfl
@[simp] theorem alloc_icache (s : Fs) (a : Nat) : (s.alloc a).icache = s.icache := rfl
@[simp] theorem alloc_devsw (s : Fs) (a : Nat) : (s.alloc a).devsw = s.devsw := rfl
@[simp] theorem alloc_outstanding (s : Fs) (a : Nat) :
    (s.alloc a).log.outstanding = s.log.outstanding := rfl
@[simp] theorem alloc_trace (s : Fs) (a : Nat) :
    (s.alloc a).log.trace = a :: s.sb.BBLOCK a :: s.log.trace := rfl

@[simp] theorem alloc_disk_same (s : Fs) (a : Nat) : (s.alloc a).disk a = Bytes.zero := by
  simp [alloc]

theorem alloc_disk_ne (s : Fs) {a b : Nat} (hb : b ≠ a) (hbm : b ≠ s.sb.BBLOCK a) :
    (s.alloc a).disk b = s.disk b := by
  simp [alloc, setBlock_disk_ne, hb, hbm]

@[simp] theorem free_sb (s : Fs) (b : Nat) : (s.free b).sb = s.sb := rfl
@[simp] theorem free_icache (s : Fs) (b : Nat) : (s.free b).icache = s.icache := rfl
@[simp] theorem free_devsw (s : Fs) (b : Nat) : (s.free b).devsw = s.devsw := rfl
@[simp] theorem free_outstanding (s : Fs) (b : Nat) :
    (s.free b).log.outstanding = s.log.outstanding := rfl
@[simp] theorem free_trace (s : Fs) (b : Nat) :
    (s.free b).log.trace = s.sb.BBLOCK b :: s.log.trace := rfl

theorem free_disk_ne (s : Fs) {b c : Nat} (hbm : c ≠ s.sb.BBLOCK b) :
    (s.free b).disk c = s.disk c := by
  simp [free, setBlock_disk_ne, hbm]

/-- Two blocks whose bits are in one free map block have different bits there. -/
theorem mod_BPB_inj {sb : Superblock} {b c : Nat} (h : sb.BBLOCK b = sb.BBLOCK c)
    (hm : b % BPB = c % BPB) : b = c := by
  simp only [Superblock.BBLOCK, BPB, BSIZE] at *
  omega

theorem used_setBit (s : Fs) (a b : Nat) :
    (s.setBlock (s.sb.BBLOCK a) ((s.disk (s.sb.BBLOCK a)).setBit (a % BPB))).used b
      = (decide (b = a) || s.used b) := by
  unfold used
  by_cases hblk : s.sb.BBLOCK b = s.sb.BBLOCK a
  · have hiff : b % BPB = a % BPB ↔ b = a := ⟨mod_BPB_inj hblk, fun h => h ▸ rfl⟩
    simp [hblk, Bytes.bit_setBit, hiff]
  · have hne : b ≠ a := fun h => hblk (h ▸ rfl)
    simp [setBlock_disk_ne, hblk, hne]

theorem used_alloc (s : Fs) {a b : Nat} (hmeta : a ≠ s.sb.BBLOCK b) :
    (s.alloc a).used b = (decide (b = a) || s.used b) := by
  rw [← used_setBit]
  simp [alloc, used, setBlock_disk_ne, hmeta.symm]

theorem used_free (s : Fs) (b c : Nat) :
    (s.free b).used c = (!decide (c = b) && s.used c) := by
  unfold used free
  by_cases hblk : s.sb.BBLOCK c = s.sb.BBLOCK b
  · have hiff : c % BPB = b % BPB ↔ c = b := ⟨mod_BPB_inj hblk, fun h => h ▸ rfl⟩
    simp [hblk, Bytes.bit_clearBit, hiff]
  · have hne : c ≠ b := fun h => hblk (h ▸ rfl)
    simp [setBlock_disk_ne, hblk, hne]

end Fs

/-! ## What the allocator does -/

section Rules

variable {s : Fs} {E : Stop → Prop}

theorem wp_bzero {b : Nat} {Q : Unit → Fs → Prop} (hb : b < FSSIZE) (hlog : MayLog E s)
    (h : Q () ((s.setBlock b Bytes.zero).logged b)) :
    wp (bzero b) Q E s := by
  simp only [bzero, wp_bind, wp_bread hb, wp_bmodify]
  exact wp_logWrite hlog.write fun _ => h

theorem ballocScan_some {sb : Superblock} {bp : Bytes} {b bi : Nat}
    (h : ballocScan sb bp b = some bi) :
    bi < BPB ∧ b + bi < sb.size ∧ bp.bit bi = false ∧
      ∀ i < bi, b + i < sb.size → bp.bit i = true := by
  obtain ⟨hp, hmem, hfirst⟩ := List.find?_range_eq_some.mp h
  simp only [Bool.and_eq_true, decide_eq_true_eq, Bool.not_eq_true'] at hp
  refine ⟨List.mem_range.mp hmem, hp.1, hp.2, fun i hi hsize => ?_⟩
  simpa [hsize] using hfirst i hi

theorem ballocScan_none {sb : Superblock} {bp : Bytes} {b : Nat} (h : ballocScan sb bp b = none) :
    ∀ i < BPB, b + i < sb.size → bp.bit i = true := by
  intro i hi hsize
  have := List.find?_eq_none.mp h i (List.mem_range.mpr hi)
  simpa [hsize] using this

private theorem wp_ballocFrom {Q : UInt32 → Fs → Prop} (hwf : s.sb.Wf)
    (hlog : MayLog E s) (hout : E .ballocOutOfBlocks)
    (h : ∀ a, a < s.sb.size → s.used a = false → (∀ b < a, s.used b = true) →
      1 ≤ s.log.outstanding → Q (UInt32.ofNat a) (s.alloc a)) :
    ∀ n k, (∀ b < k * BPB, b < s.sb.size → s.used b = true) →
      (∀ j < k + n, j * BPB < s.sb.size) →
      wp (ballocFrom ((List.range' k n).map (· * BPB))) Q E s := by
  intro n
  induction n with
  | zero =>
    intro k _ _
    simp only [List.range'_zero, List.map_nil, ballocFrom, wp_throw]
    exact hout
  | succ n ih =>
    intro k hbelow hbound
    have hk : k * BPB < s.sb.size := hbound k (by omega)
    have hblk : s.sb.BBLOCK (k * BPB) < FSSIZE :=
      hwf.isMeta_lt_FSSIZE (hwf.BBLOCK_isMeta hk)
    -- the blocks `k * BPB + i` with `i < BPB` have their bits in one free map block
    have hsame : ∀ i < BPB, s.sb.BBLOCK (k * BPB + i) = s.sb.BBLOCK (k * BPB) ∧
        (k * BPB + i) % BPB = i := by
      intro i hi
      simp only [Superblock.BBLOCK, BPB, BSIZE] at *
      omega
    simp only [List.range'_succ, List.map_cons, ballocFrom, wp_bind, wp_get, wp_bread hblk]
    cases hscan : ballocScan s.sb (s.disk (s.sb.BBLOCK (k * BPB))) (k * BPB) with
    | some bi =>
      obtain ⟨hbi, hsize, hclear, hfirst⟩ := ballocScan_some hscan
      obtain ⟨hB, hM⟩ := hsame bi hbi
      have hfree : s.used (k * BPB + bi) = false := by
        unfold Fs.used
        rw [hB, hM, hclear]
      have hbefore : ∀ b < k * BPB + bi, s.used b = true := by
        intro b hb
        by_cases hlow : b < k * BPB
        · exact hbelow b hlow (by omega)
        · obtain ⟨hB', hM'⟩ := hsame (b - k * BPB) (by omega)
          rw [show k * BPB + (b - k * BPB) = b by omega] at hB' hM'
          unfold Fs.used
          rw [hB', hM']
          exact hfirst _ (by omega) (by omega)
      have hres := h _ hsize hfree hbefore
      simp only [Fs.alloc, hB, hM] at hres
      simp only [ballocTake, wp_bind, wp_bmodify]
      refine wp_logWrite hlog.write fun hin => ?_
      refine wp_bzero (hsize.trans_le hwf.sizeLe) (hlog.congr rfl) ?_
      exact hres hin
    | none =>
      refine ih (k + 1) (fun b hb hsize => ?_) ?_
      · by_cases hlow : b < k * BPB
        · exact hbelow b hlow hsize
        · have hi : b - k * BPB < BPB := by
            rw [Nat.succ_mul] at hb
            omega
          obtain ⟨hB', hM'⟩ := hsame (b - k * BPB) hi
          rw [show k * BPB + (b - k * BPB) = b by omega] at hB' hM'
          unfold Fs.used
          rw [hB', hM']
          exact ballocScan_none hscan _ hi (by omega)
      · exact fun j hj => hbound j (by omega)

/-- `balloc` returns the first free block, zeroed and marked; outside a transaction
    it does not return. -/
theorem wp_balloc {Q : UInt32 → Fs → Prop} (hwf : s.sb.Wf)
    (hlog : MayLog E s) (hout : E .ballocOutOfBlocks)
    (h : ∀ a, a < s.sb.size → s.used a = false → (∀ b < a, s.used b = true) →
      1 ≤ s.log.outstanding → Q (UInt32.ofNat a) (s.alloc a)) :
    wp balloc Q E s := by
  simp only [balloc, bitmapStarts, wp_bind, wp_get, List.range_eq_range']
  refine wp_ballocFrom hwf hlog hout h _ 0 (by simp) fun j hj => ?_
  simp only [BPB, BSIZE] at *
  omega

/-- `bfree` clears the bit of a block that is marked. -/
theorem wp_bfree {b : Nat} {Q : Unit → Fs → Prop} (hwf : s.sb.Wf)
    (hsb : Superblock.ofBytes (s.disk SBLOCK) = s.sb) (hb : b < s.sb.size)
    (hused : s.used b = true) (hlog : MayWrite E s.log)
    (h : Q () (s.free b)) : wp (bfree b) Q E s := by
  have hblk : s.sb.BBLOCK b < FSSIZE := hwf.isMeta_lt_FSSIZE (hwf.BBLOCK_isMeta hb)
  have hbit : (s.disk (s.sb.BBLOCK b)).bit (b % BPB) = true := hused
  simp only [bfree, readsb, wp_bind, wp_bread (show SBLOCK < FSSIZE by decide), wp_pure, wp_modify,
    hsb, wp_bread hblk, hbit, if_true, wp_bmodify]
  exact wp_logWrite hlog fun _ => h

end Rules

end Xv6
