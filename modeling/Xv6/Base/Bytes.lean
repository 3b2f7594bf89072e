-- SUMMARY: Byte arrays, and their views as little-endian words and as bit sets.
import Mathlib.Tactic.Common
import Mathlib.Data.Nat.Bitwise

/-! # Byte arrays

A byte array is a function from offsets to bytes. The views below are the ones a
C program gets by casting a buffer: an array of 32-bit little-endian words, and
a bit set with eight members to the byte. Each view comes with the law that
writing one member changes that member only.
-/

abbrev Bytes := Nat → UInt8

namespace Bytes

def zero : Bytes := fun _ => 0

/-! ## Copying -/

/-- `memmove(b + o, src, m)`. -/
def splice (b : Bytes) (o m : Nat) (src : Bytes) : Bytes :=
  fun j => if o ≤ j ∧ j < o + m then src (j - o) else b j

/-- The `m` bytes from offset `o` on. -/
def slice (b : Bytes) (o m : Nat) : List UInt8 :=
  (List.range m).map fun k => b (o + k)

theorem slice_append (b : Bytes) (o m n : Nat) :
    b.slice o (m + n) = b.slice o m ++ b.slice (o + m) n := by
  simp [slice, List.range_add, Nat.add_assoc]

theorem slice_congr {b c : Bytes} {o p m : Nat} (h : ∀ k < m, b (o + k) = c (p + k)) :
    b.slice o m = c.slice p m := by
  unfold slice
  exact List.map_congr_left fun k hk => h k (List.mem_range.mp hk)

/-- Reading back what was copied. -/
theorem slice_splice (b src : Bytes) (o m : Nat) : src.slice 0 m = (b.splice o m src).slice o m := by
  refine slice_congr fun k hk => ?_
  have hin : o ≤ o + k ∧ o + k < o + m := by omega
  simp only [splice, if_pos hin]
  exact congrArg src (by omega)

/-! ## Base-256 digits -/

/-- The byte of weight `256 ^ k` of `n`. -/
def digit (n k : Nat) : UInt8 := UInt8.ofNat (n / 256 ^ k)

theorem toNat_digit (n k : Nat) : (digit n k).toNat = n / 256 ^ k % 256 := by
  simp [digit]

/-! ## Words -/

/-- `((uint*)b)[i]`. -/
def word (b : Bytes) (i : Nat) : UInt32 :=
  UInt32.ofNat ((b (4 * i)).toNat + 256 * (b (4 * i + 1)).toNat
    + 65536 * (b (4 * i + 2)).toNat + 16777216 * (b (4 * i + 3)).toNat)

/-- `((uint*)b)[i] = v`. -/
def setWord (b : Bytes) (i : Nat) (v : UInt32) : Bytes :=
  fun j => if j / 4 = i then digit v.toNat (j % 4) else b j

@[simp] theorem word_zero (i : Nat) : zero.word i = 0 := by
  simp [word, zero]

theorem word_congr {b c : Bytes} {i : Nat} (h : ∀ j, j / 4 = i → b j = c j) :
    b.word i = c.word i := by
  unfold word
  rw [h (4 * i) (by omega), h (4 * i + 1) (by omega), h (4 * i + 2) (by omega),
    h (4 * i + 3) (by omega)]

theorem word_setWord_same (b : Bytes) (i : Nat) (v : UInt32) : (b.setWord i v).word i = v := by
  have h : ∀ k, k < 4 → b.setWord i v (4 * i + k) = digit v.toNat k := by
    intro k hk
    have hdiv : (4 * i + k) / 4 = i := by omega
    have hmod : (4 * i + k) % 4 = k := by omega
    simp [setWord, hdiv, hmod]
  unfold word
  rw [show 4 * i = 4 * i + 0 by omega, h 0 (by omega), h 1 (by omega), h 2 (by omega),
    h 3 (by omega)]
  simp only [toNat_digit]
  apply UInt32.toNat_inj.mp
  have hv := v.toNat_lt
  rw [UInt32.toNat_ofNat']
  omega

theorem word_setWord_ne (b : Bytes) {i k : Nat} (v : UInt32) (h : k ≠ i) :
    (b.setWord i v).word k = b.word k := by
  apply word_congr
  intro j hj
  have hne : j / 4 ≠ i := by omega
  simp [setWord, hne]

theorem word_setWord (b : Bytes) (i k : Nat) (v : UInt32) :
    (b.setWord i v).word k = if k = i then v else b.word k := by
  split
  · next h => rw [h, word_setWord_same]
  · next h => exact word_setWord_ne b v h

/-! ## Half words

The two-byte fields of a C structure, read and written at even offsets. -/

/-- The 16-bit value whose low byte is at offset `o`. -/
def half (b : Bytes) (o : Nat) : UInt16 :=
  UInt16.ofNat ((b o).toNat + 256 * (b (o + 1)).toNat)

theorem half_of_digits {b : Bytes} {o : Nat} {v : UInt16}
    (h0 : b o = digit v.toNat 0) (h1 : b (o + 1) = digit v.toNat 1) : b.half o = v := by
  unfold half
  rw [h0, h1]
  simp only [toNat_digit]
  apply UInt16.toNat_inj.mp
  have hv := v.toNat_lt
  rw [UInt16.toNat_ofNat']
  omega

/-- A word is determined by its four digits. -/
theorem word_of_digits {b : Bytes} {i : Nat} {v : UInt32}
    (h : ∀ k < 4, b (4 * i + k) = digit v.toNat k) : b.word i = v := by
  have hcongr : b.word i = (b.setWord i v).word i := by
    apply word_congr
    intro j hj
    have hk := h (j % 4) (by omega)
    rw [show 4 * i + j % 4 = j by omega] at hk
    simp [setWord, hj, hk]
  rw [hcongr, word_setWord_same]

/-! ## Bits -/

/-- `1 << (i % 8)`. -/
def mask (i : Nat) : UInt8 := UInt8.ofNat (2 ^ (i % 8))

/-- `(b[i/8] & m) != 0` for `m = 1 << (i % 8)`. -/
def bit (b : Bytes) (i : Nat) : Bool := b (i / 8) &&& mask i != 0

/-- `b[i/8] |= m`. -/
def setBit (b : Bytes) (i : Nat) : Bytes :=
  fun j => if j = i / 8 then b j ||| mask i else b j

/-- `b[i/8] &= ~m`. -/
def clearBit (b : Bytes) (i : Nat) : Bytes :=
  fun j => if j = i / 8 then b j &&& ~~~ mask i else b j

theorem toNat_mask (i : Nat) : (mask i).toNat = 2 ^ (i % 8) := by
  have h : 2 ^ (i % 8) < 2 ^ 8 := Nat.pow_lt_pow_right (by omega) (by omega)
  simp only [mask, UInt8.toNat_ofNat']
  exact Nat.mod_eq_of_lt h

theorem and_mask_ne_zero (x : UInt8) (i : Nat) :
    (x &&& mask i != 0) = x.toNat.testBit (i % 8) := by
  have h0 : (x &&& mask i) = 0 ↔ x.toNat.testBit (i % 8) = false := by
    rw [← UInt8.toNat_inj, UInt8.toNat_and, toNat_mask, Nat.and_two_pow]
    cases x.toNat.testBit (i % 8) <;> simp
  cases hb : x.toNat.testBit (i % 8) <;> simp [h0, hb]

theorem bit_eq_testBit (b : Bytes) (i : Nat) : b.bit i = (b (i / 8)).toNat.testBit (i % 8) :=
  and_mask_ne_zero _ _

theorem testBit_not_mask (i k : Nat) (hk : k < 8) :
    (~~~ mask i).toNat.testBit k = !decide (i % 8 = k) := by
  have h : (~~~ mask i).toNat.testBit k = (~~~ mask i).toBitVec.getLsbD k := rfl
  rw [h, UInt8.toBitVec_not, BitVec.getLsbD_not]
  have hm : (mask i).toBitVec.getLsbD k = (mask i).toNat.testBit k := rfl
  rw [hm, toNat_mask, Nat.testBit_two_pow]
  simp [hk]

theorem bit_setBit (b : Bytes) (i k : Nat) :
    (b.setBit i).bit k = (decide (k = i) || b.bit k) := by
  rw [bit_eq_testBit, bit_eq_testBit, setBit]
  by_cases hbyte : k / 8 = i / 8
  · have hiff : (i % 8 = k % 8) ↔ k = i := by omega
    simp [hbyte, Nat.testBit_or, toNat_mask, Nat.testBit_two_pow, hiff, Bool.or_comm]
  · have hne : k ≠ i := fun h => hbyte (by rw [h])
    simp [hbyte, hne]

theorem bit_clearBit (b : Bytes) (i k : Nat) :
    (b.clearBit i).bit k = (!decide (k = i) && b.bit k) := by
  rw [bit_eq_testBit, bit_eq_testBit, clearBit]
  by_cases hbyte : k / 8 = i / 8
  · have hiff : (i % 8 = k % 8) ↔ k = i := by omega
    simp only [hbyte, if_true, UInt8.toNat_and, Nat.testBit_and,
      testBit_not_mask i (k % 8) (by omega), decide_eq_decide.mpr hiff]
    exact Bool.and_comm _ _
  · have hne : k ≠ i := fun h => hbyte (by rw [h])
    simp [hbyte, hne]

end Bytes
