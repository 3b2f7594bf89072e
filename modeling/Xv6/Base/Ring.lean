-- SUMMARY: Ring buffers whose counters wrap around.
import Mathlib.Data.List.Range
import Mathlib.Logic.Function.Basic
import Mathlib.Tactic.Ring

/-! # Ring buffers

A buffer of `C` cells with two counters of `w` bits: how many elements were put in and
how many were taken out. Counters are never reset; they wrap around, and cells are
found by reducing them modulo `C`, which has to divide `2 ^ w`. A ring holds a queue.
-/

namespace Xv6

structure Ring (α : Type*) (C w : Nat) where
  data : Fin C → α
  nread : BitVec w
  nwrite : BitVec w

namespace Ring

variable {α : Type*} {C w : Nat} {r : Ring α C w}

/-! ## Counters -/

/-- How many elements are in the ring. -/
def size (r : Ring α C w) : Nat := (r.nwrite - r.nread).toNat

theorem size_lt : r.size < 2 ^ w := BitVec.isLt _

/-- The write counter is where the contents end. -/
theorem nwrite_eq : r.nwrite = r.nread + BitVec.ofNat w r.size := by
  unfold size
  rw [BitVec.ofNat_toNat, BitVec.setWidth_eq, BitVec.add_comm, BitVec.sub_add_cancel]

theorem size_eq_zero : r.size = 0 ↔ r.nread = r.nwrite := by
  constructor
  · intro h
    rw [r.nwrite_eq, h, BitVec.add_zero]
  · intro h
    unfold size
    rw [h, BitVec.sub_self]
    rfl

/-- The test for a full ring, for which counters may wrap around. -/
theorem size_eq_capacity (hC : C < 2 ^ w) : r.size = C ↔ r.nwrite = r.nread + BitVec.ofNat w C := by
  constructor
  · intro h
    rw [r.nwrite_eq, h]
  · intro h
    unfold size
    rw [h, BitVec.add_comm, BitVec.add_sub_cancel, BitVec.toNat_ofNat, Nat.mod_eq_of_lt hC]

/-! ## Cells -/

variable [NeZero C]

/-- The cell that a counter points to. -/
def cell (n : BitVec w) : Fin C := Fin.ofNat C n.toNat

/-- The elements in the ring, oldest first. -/
def contents (r : Ring α C w) : List α := (List.range r.size).map fun k => r.data (cell (r.nread + BitVec.ofNat w k))

def push (r : Ring α C w) (x : α) : Ring α C w :=
  { r with data := Function.update r.data (cell r.nwrite) x, nwrite := r.nwrite + 1 }

/-- The oldest element. -/
def front (r : Ring α C w) : α := r.data (cell r.nread)

def pop (r : Ring α C w) : Ring α C w := { r with nread := r.nread + 1 }

@[simp] theorem length_contents : r.contents.length = r.size := by
  unfold contents
  rw [List.length_map, List.length_range]

theorem contents_eq_nil (h : r.nread = r.nwrite) : r.contents = [] := by
  unfold contents
  rw [size_eq_zero.mpr h]
  rfl

theorem cell_add (hdvd : C ∣ 2 ^ w) (n : BitVec w) (k : Nat) :
    (cell (n + BitVec.ofNat w k) : Fin C).val = (n.toNat + k) % C := by
  unfold cell
  rw [Fin.val_ofNat, BitVec.toNat_add, BitVec.toNat_ofNat, Nat.add_mod_mod, Nat.mod_mod_of_dvd _ hdvd]

/-- Elements that are less than a round apart have their own cells. -/
theorem cell_ne (hdvd : C ∣ 2 ^ w) (n : BitVec w) {j k : Nat} (hjk : j < k) (hk : k < C + j) :
    (cell (n + BitVec.ofNat w j) : Fin C) ≠ cell (n + BitVec.ofNat w k) := by
  intro h
  have hval := congrArg Fin.val h
  rw [cell_add hdvd, cell_add hdvd] at hval
  have hmod : (n.toNat + k - (n.toNat + j)) % C = 0 := Nat.sub_mod_eq_zero_of_mod_eq hval.symm
  have hlt : n.toNat + k - (n.toNat + j) < C := by omega
  rw [Nat.mod_eq_of_lt hlt] at hmod
  omega

theorem size_push (hsize : r.size + 1 < 2 ^ w) (x : α) : (r.push x).size = r.size + 1 := by
  have hpush : (r.push x).size = (r.nwrite + 1 - r.nread).toNat := rfl
  have hone : (1 : BitVec w) = BitVec.ofNat w 1 := rfl
  rw [hpush, r.nwrite_eq, hone, BitVec.add_assoc, ← BitVec.ofNat_add, BitVec.add_comm, BitVec.add_sub_cancel,
    BitVec.toNat_ofNat, Nat.mod_eq_of_lt hsize]

theorem contents_push (hdvd : C ∣ 2 ^ w) (hC : C < 2 ^ w) (hsize : r.size < C) (x : α) :
    (r.push x).contents = r.contents ++ [x] := by
  have hsize' : (r.push x).size = r.size + 1 := size_push (by omega) x
  unfold contents
  rw [hsize', List.range_succ, List.map_append]
  congr 1
  · -- What was in the ring before is in other cells.
    refine List.map_congr_left fun k hk => ?_
    have hk := List.mem_range.mp hk
    refine Function.update_of_ne ?_ _ _
    rw [r.nwrite_eq]
    exact cell_ne hdvd _ hk (by omega)
  · have hcell : (r.push x).nread + BitVec.ofNat w r.size = r.nwrite := r.nwrite_eq.symm
    simp only [List.map_cons, List.map_nil, hcell]
    exact congrArg (fun y => [y]) (Function.update_self _ _ _)

omit [NeZero C] in
theorem size_pop (hne : r.nread ≠ r.nwrite) : r.pop.size + 1 = r.size := by
  have hpos : r.size ≠ 0 := fun h => hne (size_eq_zero.mp h)
  have hlt := r.size_lt
  obtain ⟨n, hn⟩ := Nat.exists_eq_succ_of_ne_zero hpos
  have hpop : r.pop.size = (r.nwrite - (r.nread + 1)).toNat := rfl
  have hone : (1 : BitVec w) = BitVec.ofNat w 1 := rfl
  have hsum : r.nwrite = (r.nread + 1) + BitVec.ofNat w n := by
    rw [r.nwrite_eq, hn, hone, BitVec.add_assoc, ← BitVec.ofNat_add, Nat.succ_eq_one_add]
  rw [hpop, hsum, BitVec.add_comm, BitVec.add_sub_cancel, BitVec.toNat_ofNat, Nat.mod_eq_of_lt (by omega), hn]

theorem contents_pop (hne : r.nread ≠ r.nwrite) : r.contents = r.front :: r.pop.contents := by
  have hone : (1 : BitVec w) = BitVec.ofNat w 1 := rfl
  unfold contents
  rw [← size_pop hne, List.range_succ_eq_map, List.map_cons, List.map_map]
  congr 1
  · rw [BitVec.add_zero]
    rfl
  · refine List.map_congr_left fun k _ => ?_
    have hcell : r.nread + BitVec.ofNat w (k + 1) = r.pop.nread + BitVec.ofNat w k := by
      change _ = r.nread + 1 + BitVec.ofNat w k
      rw [hone, BitVec.add_assoc, ← BitVec.ofNat_add, Nat.add_comm k 1]
    exact congrArg (fun n => r.data (cell n)) hcell

end Ring

end Xv6
