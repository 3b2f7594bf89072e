-- SUMMARY: Abstract files: numbered byte arrays with a size, positional reads and writes, and the last-write law.
import Xv6.Base.Bytes

/-! # Byte files

A file is a size and a byte for every position. Reads and writes take an offset
and a length and may fail, in which case nothing changes. `FileOp.run` is the
meaning of a sequence of calls on numbered files; `run_byte` says that it holds
at every position what was written there last.
-/

structure File where
  size : Nat
  byte : Bytes

namespace File

@[ext] theorem ext {f g : File} (hsize : f.size = g.size) (hbyte : f.byte = g.byte) : f = g := by
  cases f; cases g; simp_all

/-- Replace `n` bytes from `off` on; a write of nothing changes nothing. -/
def write (f : File) (off n : Nat) (src : Bytes) : File where
  size := if 0 < n then max f.size (off + n) else f.size
  byte := f.byte.splice off n src

theorem write_zero (f : File) (off : Nat) (src : Bytes) : f.write off 0 src = f := by
  refine File.ext ?_ (funext fun p => ?_)
  · simp [write]
  · have hno : ¬ (off ≤ p ∧ p < off + 0) := by omega
    simp only [write, Bytes.splice, if_neg hno]

/-- Writes that follow one another are one write. -/
theorem write_append (f : File) (off m m' : Nat) (src : Bytes) :
    (f.write off m src).write (off + m) m' (fun j => src (m + j)) = f.write off (m + m') src := by
  refine File.ext ?_ (funext fun p => ?_)
  · simp only [write]
    split <;> split <;> split <;> omega
  · simp only [write, Bytes.splice]
    by_cases h1 : off ≤ p ∧ p < off + m
    · rw [if_neg (by omega), if_pos h1, if_pos (by omega)]
    · by_cases h2 : off + m ≤ p ∧ p < off + m + m'
      · rw [if_pos h2, if_pos (by omega)]
        exact congrArg src (by omega)
      · rw [if_neg h2, if_neg h1, if_neg (by omega)]

/-- How many of `n` bytes from `off` on are in the file. -/
def readLen (f : File) (off n : Nat) : Nat := min n (f.size - off)

def read (f : File) (off n : Nat) : List UInt8 := f.byte.slice off (f.readLen off n)

/-- Past its end the file holds zeros. -/
def Clean (f : File) : Prop := ∀ p, f.size ≤ p → f.byte p = 0

theorem Clean.write {f : File} (h : f.Clean) (off n : Nat) (src : Bytes) :
    (f.write off n src).Clean := by
  intro p hp
  by_cases hn : 0 < n
  · simp only [File.write, if_pos hn] at hp
    have hout : ¬ (off ≤ p ∧ p < off + n) := by omega
    simp only [File.write, Bytes.splice, if_neg hout]
    exact h p (by omega)
  · simp only [File.write, if_neg hn] at hp
    have hout : ¬ (off ≤ p ∧ p < off + n) := by omega
    simp only [File.write, Bytes.splice, if_neg hout]
    exact h p hp

end File

/-! ## Chunks at one offset -/

namespace File

/-- Write a buffer of `n` bytes in chunks of `c` bytes, every chunk at `off`: each
    position keeps the byte of the last chunk that reaches it. -/
def pile (f : File) (off n c : Nat) (src : Bytes) : File where
  size := if 0 < n then max f.size (off + min n c) else f.size
  byte := f.byte.splice off (min n c) fun k => src (c * ((n - 1 - k) / c) + k)

@[simp] theorem pile_zero (f : File) (off c : Nat) (src : Bytes) : f.pile off 0 c src = f := by
  refine File.ext ?_ (funext fun p => ?_)
  · simp [pile]
  · have hno : ¬ (off ≤ p ∧ p < off + min 0 c) := by omega
    simp only [pile, Bytes.splice, if_neg hno]

/-- The first chunk, then the others. -/
theorem pile_step (f : File) (off : Nat) {n c : Nat} (hc : 0 < c) (hn : 0 < n) (src : Bytes) :
    f.pile off n c src =
      (f.write off (min n c) src).pile off (n - min n c) c fun j => src (min n c + j) := by
  have hpos : 0 < min n c := by omega
  refine File.ext ?_ (funext fun p => ?_)
  · simp only [pile, write, if_pos hn, if_pos hpos]
    split <;> omega
  · simp only [pile, write, Bytes.splice]
    by_cases hlate : off ≤ p ∧ p < off + min (n - min n c) c
    · -- a later chunk reaches this position as well
      have hdiv : n - 1 - (p - off) = (n - min n c - 1 - (p - off)) + c := by omega
      rw [if_pos hlate, if_pos (by omega), hdiv, Nat.add_div_right _ hc, Nat.mul_succ]
      exact congrArg src (by omega)
    · rw [if_neg hlate]
      by_cases hp : off ≤ p ∧ p < off + min n c
      · rw [if_pos hp, if_pos hp, Nat.div_eq_of_lt (by omega)]
        exact congrArg src (by omega)
      · rw [if_neg hp, if_neg hp]

/-- Chunks at one offset come out as one write of the buffer exactly when there is
    only one chunk, or everything else is already there. -/
theorem pile_eq_write_iff (f : File) (off n : Nat) {c : Nat} (hc : 0 < c) (src : Bytes) :
    f.pile off n c src = f.write off n src ↔
      n ≤ c ∨ (off + n ≤ f.size ∧ (∀ k < c, src (c * ((n - 1 - k) / c) + k) = src k) ∧
        ∀ k, c ≤ k → k < n → f.byte (off + k) = src k) := by
  constructor
  · intro heq
    by_cases hn : n ≤ c
    · exact .inl hn
    · have hsize := congrArg File.size heq
      have hbyte := fun k => congrFun (congrArg File.byte heq) (off + k)
      simp only [pile, write, Bytes.splice, Nat.add_sub_cancel_left] at hsize hbyte
      rw [if_pos (by omega), if_pos (by omega)] at hsize
      refine .inr ⟨by omega, fun k hk => ?_, fun k hk hlt => ?_⟩
      · have := hbyte k
        rwa [if_pos (by omega), if_pos (by omega)] at this
      · have := hbyte k
        rwa [if_neg (by omega), if_pos (by omega)] at this
  · intro hor
    rcases hor with hn | ⟨hsize, hlow, hhigh⟩
    · rcases Nat.eq_zero_or_pos n with rfl | hpos
      · rw [pile_zero, write_zero]
      · rw [pile_step f off hc hpos, Nat.min_eq_left hn, Nat.sub_self, pile_zero]
    · refine File.ext ?_ (funext fun p => ?_)
      · simp only [pile, write]
        split <;> omega
      · simp only [pile, write, Bytes.splice]
        by_cases hp : off ≤ p ∧ p < off + n
        · rw [if_pos hp]
          by_cases hpc : off ≤ p ∧ p < off + min n c
          · rw [if_pos hpc, hlow _ (by omega)]
          · have := hhigh (p - off) (by omega) (by omega)
            rw [if_neg hpc, ← this]
            exact congrArg f.byte (by omega)
        · rw [if_neg hp, if_neg (by omega)]

end File

/-- A call on file `i`. -/
inductive FileOp where
  | write (i off n : Nat) (src : Bytes)
  | read (i off n : Nat)

/-- Offsets wrap at `wrap`, and no file grows past `max`. -/
structure FileLimits where
  wrap : Nat
  max : Nat

namespace FileLimits

/-- Writes that are refused. -/
def WriteFails (lim : FileLimits) (off n : Nat) : Prop := lim.wrap ≤ off + n ∨ lim.max < off + n

/-- Reads that are refused. -/
def ReadFails (lim : FileLimits) (f : File) (off n : Nat) : Prop :=
  f.size < off ∨ lim.wrap ≤ off + n

instance (lim : FileLimits) (off n : Nat) : Decidable (lim.WriteFails off n) := by
  unfold WriteFails; infer_instance

instance (lim : FileLimits) (f : File) (off n : Nat) : Decidable (lim.ReadFails f off n) := by
  unfold ReadFails; infer_instance

end FileLimits

namespace FileOp

variable {lim : FileLimits}

/-- The return value with the bytes read, and the files afterwards. -/
def step (lim : FileLimits) (fs : Nat → File) : FileOp → (Int × List UInt8) × (Nat → File)
  | .write i off n src =>
    if lim.WriteFails off n then ((-1, []), fs)
    else ((n, []), fun j => if j = i then (fs i).write off n src else fs j)
  | .read i off n =>
    if lim.ReadFails (fs i) off n then ((-1, []), fs)
    else (((fs i).readLen off n, (fs i).read off n), fs)

def run (lim : FileLimits) (fs : Nat → File) :
    List FileOp → List (Int × List UInt8) × (Nat → File)
  | []        => ([], fs)
  | op :: ops =>
    let r := step lim fs op
    let rest := run lim r.2 ops
    (r.1 :: rest.1, rest.2)

theorem run_append (fs : Nat → File) (ops ops' : List FileOp) :
    run lim fs (ops ++ ops') = ((run lim fs ops).1 ++ (run lim (run lim fs ops).2 ops').1,
      (run lim (run lim fs ops).2 ops').2) := by
  induction ops generalizing fs with
  | nil => rfl
  | cons op ops ih => simp only [List.cons_append, run, ih]

/-- The byte a call stores at position `p` of file `i`, if it stores one there. -/
def stores (lim : FileLimits) (i p : Nat) : FileOp → Option UInt8
  | .write j off n src =>
    if j = i ∧ ¬ lim.WriteFails off n ∧ off ≤ p ∧ p < off + n then some (src (p - off)) else none
  | .read .. => none

/-- The byte stored last at position `p` of file `i` by a sequence of calls. -/
def lastWritten (lim : FileLimits) (i p : Nat) : List FileOp → Option UInt8
  | []        => none
  | op :: ops => (lastWritten lim i p ops).or (op.stores lim i p)

theorem step_byte (fs : Nat → File) (op : FileOp) (i p : Nat) :
    ((step lim fs op).2 i).byte p = (op.stores lim i p).getD ((fs i).byte p) := by
  cases op with
  | write j off n src =>
    simp only [step, stores]
    by_cases hfail : lim.WriteFails off n
    · simp [hfail]
    · by_cases hj : i = j
      · subst hj
        simp only [hfail, if_false, if_true, not_false_eq_true, true_and, File.write, Bytes.splice]
        split <;> rfl
      · simp [hfail, hj, Ne.symm hj]
  | read j off n =>
    simp only [step, stores]
    split <;> rfl

/-- Every position holds the byte written last. -/
theorem run_byte (ops : List FileOp) (fs : Nat → File) (i p : Nat) :
    ((run lim fs ops).2 i).byte p = (lastWritten lim i p ops).getD ((fs i).byte p) := by
  induction ops generalizing fs with
  | nil => rfl
  | cons op ops ih =>
    simp only [run, lastWritten, ih, step_byte]
    cases lastWritten lim i p ops <;> rfl

/-- A reply only depends on the calls before it. -/
theorem run_reply (ops : List FileOp) (fs : Nat → File) (k : Nat) :
    (run lim fs ops).1[k]? = ops[k]?.map fun op => (step lim (run lim fs (ops.take k)).2 op).1 := by
  induction ops generalizing fs k with
  | nil => simp [run]
  | cons op ops ih =>
    cases k with
    | zero => simp [run]
    | succ k => simp [run, ih]

/-- What a read returns after the calls `hist`: as many bytes as there are, and at
    every position the byte written last, or the byte that was there from the start. -/
def readReply (lim : FileLimits) (fs : Nat → File) (hist : List FileOp) (i off n : Nat) :
    Int × List UInt8 :=
  let f := (run lim fs hist).2 i
  if lim.ReadFails f off n then (-1, [])
  else (f.readLen off n, (List.range (f.readLen off n)).map fun j =>
    (lastWritten lim i (off + j) hist).getD ((fs i).byte (off + j)))

theorem run_read {ops : List FileOp} {fs : Nat → File} {k i off n : Nat}
    (hk : ops[k]? = some (.read i off n)) :
    (run lim fs ops).1[k]? = some (readReply lim fs (ops.take k) i off n) := by
  simp only [run_reply, hk, Option.map_some, step, readReply, File.read, Bytes.slice, run_byte]
  split <;> rfl

theorem step_clean {fs : Nat → File} {op : FileOp} {i : Nat} (h : (fs i).Clean) :
    ((step lim fs op).2 i).Clean := by
  cases op with
  | write j off n src =>
    simp only [step]
    split
    · exact h
    · by_cases hj : i = j
      · subst hj
        simpa using h.write off n src
      · simpa [hj] using h
  | read j off n =>
    simp only [step]
    split <;> exact h

theorem run_clean {fs : Nat → File} (ops : List FileOp) {i : Nat} (h : (fs i).Clean) :
    ((run lim fs ops).2 i).Clean := by
  induction ops generalizing fs with
  | nil => exact h
  | cons op ops ih => exact ih (step_clean h)

/-- In a file that was clean, a position past the old end that was never written is zero. -/
theorem run_hole {fs : Nat → File} (ops : List FileOp) {i p : Nat} (h : (fs i).Clean)
    (hp : (fs i).size ≤ p) (hnone : lastWritten lim i p ops = none) :
    ((run lim fs ops).2 i).byte p = 0 := by
  rw [run_byte, hnone]
  exact h p hp

end FileOp
