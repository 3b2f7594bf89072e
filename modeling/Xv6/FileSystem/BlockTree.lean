-- SUMMARY: The block tree of every inode: views of inodes, the forest they span, and paths of block numbers.
import Xv6.Base.PointerTree
import Xv6.FileSystem.Inodes

/-! # Block trees

The `addrs` of all inodes are the roots of a pointer forest on the disk. A block
number of a file is a path in it: an entry of `addrs` and an index for every
level of indirect tables below that entry. `bmap` walks that path
(`bmap_eq_walk`), which is the only thing the rest of the development uses about
its arithmetic.
-/

namespace Xv6

/-! ## Views -/

namespace Fs

/-- The copy of inode `i` on disk. -/
def dinode (s : Fs) (i : Nat) : Dinode := Dinode.get (s.disk (s.sb.IBLOCK i)) (i % IPB)

/-- `ip` is a referenced, valid cache entry of inode `i`. -/
def Caches (s : Fs) (ip : InodePtr) (i : Nat) : Prop :=
  0 < (s.icache ip).ref ∧ (s.icache ip).valid = true ∧ (s.icache ip).inum = i

instance (s : Fs) (ip : InodePtr) (i : Nat) : Decidable (s.Caches ip i) := by
  unfold Caches; infer_instance

/-- An inode as the kernel sees it: the valid cache entry if there is one, else
    the disk copy. -/
def view (s : Fs) (i : Nat) : Dinode :=
  match (List.finRange NINODE).find? fun ip => decide (s.Caches ip i) with
  | some ip => (s.icache ip).toDinode
  | none    => s.dinode i

/-- No inode is cached twice. -/
def CacheInj (s : Fs) : Prop :=
  ∀ ip jp, 0 < (s.icache ip).ref → 0 < (s.icache jp).ref →
    (s.icache ip).inum = (s.icache jp).inum → ip = jp

theorem view_of_caches {s : Fs} (hinj : s.CacheInj) {ip : InodePtr} {i : Nat}
    (h : s.Caches ip i) : s.view i = (s.icache ip).toDinode := by
  unfold view
  cases hf : (List.finRange NINODE).find? fun ip => decide (s.Caches ip i) with
  | none =>
    have := List.find?_eq_none.mp hf ip (List.mem_finRange ip)
    simp [h] at this
  | some jp =>
    have hj := List.find?_some hf
    simp only [decide_eq_true_eq] at hj
    have : jp = ip := hinj jp ip hj.1 h.1 (hj.2.2.trans h.2.2.symm)
    rw [this]

theorem view_of_not_cached {s : Fs} {i : Nat} (h : ∀ ip, ¬ s.Caches ip i) :
    s.view i = s.dinode i := by
  unfold view
  have hf : ((List.finRange NINODE).find? fun ip => decide (s.Caches ip i)) = none :=
    List.find?_eq_none.mpr fun ip _ => by simp [h ip]
  rw [hf]

/-- A view is a cache entry or the disk copy. -/
theorem view_cases {s : Fs} (hinj : s.CacheInj) (i : Nat) :
    (∃ ip, s.Caches ip i ∧ s.view i = (s.icache ip).toDinode) ∨
    ((∀ ip, ¬ s.Caches ip i) ∧ s.view i = s.dinode i) := by
  by_cases h : ∃ ip, s.Caches ip i
  · obtain ⟨ip, hip⟩ := h
    exact .inl ⟨ip, hip, view_of_caches hinj hip⟩
  · have h' : ∀ ip, ¬ s.Caches ip i := fun ip hip => h ⟨ip, hip⟩
    exact .inr ⟨h', view_of_not_cached h'⟩

/-- Inode `i` exists and has a type. -/
def Allocated (s : Fs) (i : Nat) : Prop := i < s.sb.ninodes ∧ (s.view i).type ≠ 0

instance (s : Fs) (i : Nat) : Decidable (s.Allocated i) := by unfold Allocated; infer_instance

/-- The forest of block pointers. A key is an inode number with an entry of `addrs`. -/
def forest (s : Fs) : Forest (Nat × Fin NADDRS) UInt32 where
  root := fun k => if s.Allocated k.1 then (s.view k.1).addrs k.2 else 0
  child := fun a j => (s.disk a.toNat).word j

theorem forest_root {s : Fs} {i : Nat} (h : s.Allocated i) (k : Fin NADDRS) :
    s.forest.root (i, k) = (s.view i).addrs k := if_pos h

theorem forest_child (s : Fs) (a : UInt32) (j : Nat) :
    s.forest.child a j = (s.disk a.toNat).word j := rfl

end Fs

/-! ## Paths -/

/-- Levels of tables below an entry of `addrs`. -/
def addrDepth (k : Fin NADDRS) : Nat := k + 1 - NDIRECT

def blockShape : Shape (Nat × Fin NADDRS) where
  depth := fun k => addrDepth k.2
  fan := NINDIRECT

/-- Where block number `bn` hangs: the entry of `addrs`, and the table indices below it. -/
def blockPath (bn : Nat) : Fin NADDRS × List Nat :=
  if h : bn < NDIRECT then (⟨bn, lt_NADDRS h⟩, [])
  else
    let bn := bn - NDIRECT
    if bn < NINDIRECT then (10, [bn])
    else
      let bn := bn - NINDIRECT
      if bn < NDOUBINDIRECT then (11, [bn / NINDIRECT, bn % NINDIRECT])
      else
        let bn := bn - NDOUBINDIRECT
        (12, [bn / NDOUBINDIRECT, bn % NDOUBINDIRECT / NINDIRECT, bn % NDOUBINDIRECT % NINDIRECT])

/-- The four address regimes. -/
theorem blockPath_cases {bn : Nat} (h : bn < MAXFILE) :
    (∃ hd : bn < NADDRS, bn < 10 ∧ blockPath bn = (⟨bn, hd⟩, [])) ∨
    (∃ m, m < 128 ∧ bn = 10 + m ∧ blockPath bn = (10, [m])) ∨
    (∃ m, m < 16384 ∧ bn = 138 + m ∧ blockPath bn = (11, [m / 128, m % 128])) ∨
    (∃ m, m < 2097152 ∧ bn = 16522 + m ∧
      blockPath bn = (12, [m / 16384, m % 16384 / 128, m % 16384 % 128])) := by
  have e1 : NINDIRECT = 128 := rfl
  have e2 : NDOUBINDIRECT = 16384 := rfl
  have e3 : MAXFILE = 2113674 := rfl
  unfold blockPath
  by_cases h1 : bn < NDIRECT
  · exact .inl ⟨by unfold NADDRS; omega, h1, dif_pos h1⟩
  rw [dif_neg h1]
  simp only [NDIRECT, e1, e2] at *
  by_cases h2 : bn - 10 < 128
  · exact .inr (.inl ⟨bn - 10, h2, by omega, if_pos h2⟩)
  rw [if_neg h2]
  by_cases h3 : bn - 10 - 128 < 16384
  · rw [if_pos h3]
    exact .inr (.inr (.inl ⟨bn - 10 - 128, h3, by omega, rfl⟩))
  · rw [if_neg h3]
    exact .inr (.inr (.inr ⟨bn - 10 - 128 - 16384, by omega, by omega, rfl⟩))

/-- A path of a block number ends at a data block: it is as long as the tree is deep. -/
theorem blockPath_length {bn : Nat} (h : bn < MAXFILE) :
    (blockPath bn).2.length = addrDepth (blockPath bn).1 := by
  rcases blockPath_cases h with ⟨hd, hlt, heq⟩ | ⟨m, -, -, heq⟩ | ⟨m, -, -, heq⟩ | ⟨m, -, -, heq⟩
  · simp only [heq, addrDepth, NDIRECT, List.length_nil]; omega
  all_goals rw [heq]; rfl

theorem blockPath_path {bn : Nat} (h : bn < MAXFILE) (i : Nat) :
    blockShape.Path (i, (blockPath bn).1) (blockPath bn).2 := by
  refine ⟨(blockPath_length h).le, ?_⟩
  simp only [blockShape, NINDIRECT, BSIZE]
  rcases blockPath_cases h with ⟨hd, -, heq⟩ | ⟨m, hm, -, heq⟩ | ⟨m, hm, -, heq⟩ | ⟨m, hm, -, heq⟩
  all_goals simp only [heq, List.mem_cons, List.not_mem_nil, or_false, forall_eq_or_imp, forall_eq,
    false_implies, implies_true]
  all_goals omega

/-- Different block numbers of a file lie on different paths. -/
theorem blockPath_inj {bn bn' : Nat} (h : bn < MAXFILE) (h' : bn' < MAXFILE)
    (heq : blockPath bn = blockPath bn') : bn = bn' := by
  rcases blockPath_cases h with ⟨hd, hlt, h1⟩ | ⟨m, hm, rfl, h1⟩ | ⟨m, hm, rfl, h1⟩ | ⟨m, hm, rfl, h1⟩ <;>
    rcases blockPath_cases h' with ⟨hd', hlt', h2⟩ | ⟨m', hm', rfl, h2⟩ | ⟨m', hm', rfl, h2⟩ | ⟨m', hm', rfl, h2⟩ <;>
    rw [h1, h2] at heq
  all_goals simp only [Prod.mk.injEq, List.cons.injEq, and_true, Fin.ext_iff, Fin.isValue] at heq
  all_goals first | omega | simp at heq

/-! ## Walking -/

/-- Descend through tables, allocating what is missing. -/
def walk : UInt32 → List Nat → FS UInt32
  | a, []      => pure a
  | a, j :: js => do
    let b ← loadEntry a j
    walk b js

theorem bmap_outOfRange {ip : InodePtr} {bn : Nat} (h : ¬ bn < MAXFILE) :
    bmap ip bn = throw .bmapOutOfRange := by
  have hmax : MAXFILE = NDIRECT + NINDIRECT + NDOUBINDIRECT + NTRIPINDIRECT := rfl
  unfold bmap
  rw [dif_neg (by omega), if_neg (by omega), if_neg (by omega), if_neg (by omega)]

theorem bmap_eq_walk {ip : InodePtr} {bn : Nat} (h : bn < MAXFILE) :
    bmap ip bn = (do
      let a ← loadAddr ip (blockPath bn).1
      walk a (blockPath bn).2) := by
  have e1 : NINDIRECT = 128 := rfl
  have e2 : NDOUBINDIRECT = 16384 := rfl
  have e3 : NTRIPINDIRECT = 2097152 := rfl
  unfold bmap
  rcases blockPath_cases h with ⟨hd, hlt, heq⟩ | ⟨m, hm, rfl, heq⟩ | ⟨m, hm, rfl, heq⟩ | ⟨m, hm, rfl, heq⟩
  · rw [dif_pos (show bn < NDIRECT from hlt), heq]
    simp only [walk, bind_pure]
  · rw [dif_neg (by unfold NDIRECT; omega), heq]
    have h1 : 10 + m - NDIRECT = m := by unfold NDIRECT; omega
    simp only [h1, e1, if_pos hm, walk, bind_pure]
  · rw [dif_neg (by unfold NDIRECT; omega), heq]
    have h1 : 138 + m - NDIRECT = 128 + m := by unfold NDIRECT; omega
    have h2 : ¬ 128 + m < 128 := by omega
    have h3 : 128 + m - 128 = m := by omega
    simp only [h1, h3, e1, e2, if_neg h2, if_pos hm, walk, bind_pure]
  · rw [dif_neg (by unfold NDIRECT; omega), heq]
    have h1 : 16522 + m - NDIRECT = 16512 + m := by unfold NDIRECT; omega
    have h2 : ¬ 16512 + m < 128 := by omega
    have h3 : 16512 + m - 128 = 16384 + m := by omega
    have h4 : ¬ 16384 + m < 16384 := by omega
    have h5 : 16384 + m - 16384 = m := by omega
    simp only [h1, h3, h5, e1, e2, e3, if_neg h2, if_neg h4, if_pos hm, walk, bind_pure]

end Xv6
