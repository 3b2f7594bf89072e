-- SUMMARY: File system operations as programs of buffer calls, and the log that admits them.
import Mathlib.Data.Nat.Pairing
import Xv6.Disk.Bio

/-! # Operations on buffers

A file system operation is seen here as the calls to the buffer cache that it makes, one
after the other. What is in the blocks matters only for which calls these are, so that
the programs of `bmap`, `itrunc` and `writei` are worked out from the tables of the
file. `Machine` runs such programs between `begin_op` and `end_op`, with the commit of
the last operation as one more program.
-/

namespace Xv6.Bio

/-! ## Programs -/

/-- What is done with the buffer of a block. -/
inductive Io where
  | bget | lock | read | logWrite | bwrite | written | brelse | unref
  deriving DecidableEq, Repr

inductive Ev where
  | io (op : Io) (b : Nat)
  /-- `log.lh.n = 0`. -/
  | clear
  deriving DecidableEq, Repr

abbrev Program := List Ev

def breadOf (b : Nat) : Program := [.io .bget b, .io .lock b, .io .read b]

def logWriteOf (b : Nat) : Program := [.io .logWrite b]

def bwriteOf (b : Nat) : Program := [.io .bwrite b, .io .written b]

def brelseOf (b : Nat) : Program := [.io .brelse b, .io .unref b]

/-- One turn of the loop of `write_log`. -/
def copyToLog (dst b : Nat) : Program :=
  breadOf dst ++ breadOf b ++ bwriteOf dst ++ brelseOf b ++ brelseOf dst

/-- One turn of the loop of `install_trans`. -/
def copyHome (lbuf b : Nat) : Program :=
  breadOf lbuf ++ breadOf b ++ bwriteOf b ++ brelseOf lbuf ++ brelseOf b

section Log

variable (sb : Superblock)

/-- Copy modified blocks from cache to log. -/
def writeLog (lh : List Nat) : Program :=
  lh.zipIdx.flatMap fun q => copyToLog (sb.logstart + q.2 + 1) q.1

def writeHead : Program := breadOf sb.logstart ++ bwriteOf sb.logstart ++ brelseOf sb.logstart

/-- Copy committed blocks from log to their home location. -/
def installTrans (lh : List Nat) : Program :=
  lh.zipIdx.flatMap fun q => copyHome (sb.logstart + q.2 + 1) q.1

def commit (lh : List Nat) : Program :=
  if lh.length > 0 then writeLog sb lh ++ writeHead sb ++ installTrans sb lh ++ [.clear] ++ writeHead sb else []

end Log

/-! ## Programs of the file system -/

/-- A file whose blocks are looked up, and the calls made on the way. -/
structure Script where
  addrs : Nat → Nat
  /-- The entries of the tables. -/
  table : Nat → Nat → Nat
  /-- The blocks that `balloc` will find free. -/
  free : List Nat
  calls : Program

section Files

variable (sb : Superblock)

def call (p : Program) : StateM Script Unit := modify fun f => { f with calls := f.calls ++ p }

/-- Zero a block. -/
def bzero (b : Nat) : Program := breadOf b ++ logWriteOf b ++ brelseOf b

/-- Allocate a zeroed disk block: the first that is free. The free map is read up to its bit. -/
def balloc : StateM Script Nat := do
  let f ← get
  let b := f.free.headD 0
  set { f with free := f.free.tail }
  call ((List.range (b / BPB)).flatMap fun j => breadOf (j + sb.bmapstart) ++ brelseOf (j + sb.bmapstart))
  call (breadOf (sb.BBLOCK b) ++ logWriteOf (sb.BBLOCK b) ++ brelseOf (sb.BBLOCK b))
  call (bzero b)
  return b

/-- Free a disk block. -/
def bfree (b : Nat) : Program :=
  breadOf SBLOCK ++ brelseOf SBLOCK ++
    (breadOf (sb.BBLOCK b) ++ logWriteOf (sb.BBLOCK b) ++ brelseOf (sb.BBLOCK b))

/-- Copy a modified in-memory inode to disk. -/
def iupdate (inum : Nat) : Program :=
  breadOf (sb.IBLOCK inum) ++ logWriteOf (sb.IBLOCK inum) ++ brelseOf (sb.IBLOCK inum)

/-- The block at `ip->addrs[n]`, allocated if necessary. -/
def bmapAddr (n : Nat) : StateM Script Nat := do
  let addr := (← get).addrs n
  if addr ≠ 0 then return addr
  let addr ← balloc sb
  modify fun f => { f with addrs := Function.update f.addrs n addr }
  return addr

/-- The block at entry `n` of a table, allocated if necessary. -/
def bmapEntry (bp n : Nat) : StateM Script Nat := do
  call (breadOf bp)
  let mut addr := (← get).table bp n
  if addr = 0 then
    addr ← balloc sb
    let entry := addr
    modify fun f => { f with table := Function.update f.table bp (Function.update (f.table bp) n entry) }
    call (logWriteOf bp)
  call (brelseOf bp)
  return addr

/-- The disk block of block `bn` of the file. -/
def bmap (bn : Nat) : StateM Script Nat := do
  if bn < NDIRECT then return ← bmapAddr sb bn
  let bn := bn - NDIRECT
  if bn < NINDIRECT then
    let addr ← bmapAddr sb NDIRECT
    return ← bmapEntry sb addr bn
  let bn := bn - NINDIRECT
  if bn < NDOUBINDIRECT then
    let addr ← bmapAddr sb (NDIRECT + 1)
    let addr ← bmapEntry sb addr (bn / NINDIRECT)
    return ← bmapEntry sb addr (bn % NINDIRECT)
  let bn := bn - NDOUBINDIRECT
  let addr ← bmapAddr sb (NDIRECT + 2)
  let addr ← bmapEntry sb addr (bn / NDOUBINDIRECT)
  let tmp := bn % NDOUBINDIRECT
  let addr ← bmapEntry sb addr (tmp / NINDIRECT)
  bmapEntry sb addr (tmp % NINDIRECT)

/-- The loop of `writei`: `n` bytes at `off`, in at most `fuel` blocks. -/
def writeBlocks : (fuel off n : Nat) → StateM Script Unit
  | 0, _, _ => return ()
  | fuel + 1, off, n => do
    if n = 0 then return ()
    let b ← bmap sb (off / BSIZE)
    call (breadOf b ++ logWriteOf b ++ brelseOf b)
    let m := min n (BSIZE - off % BSIZE)
    writeBlocks fuel (off + m) (n - m)

/-- Write data to an inode of a regular file. -/
def writei (inum size off n : Nat) : StateM Script Unit := do
  writeBlocks sb n off n
  if n > 0 ∧ off + n > size then call (iupdate sb inum)

/-- The entries of a table that are not zero. -/
def entries (table : Nat → Nat → Nat) (b : Nat) : List Nat :=
  ((List.range NINDIRECT).map (table b)).filter (· ≠ 0)

/-- Free an indirect block and, with `below`, what its entries lead to. -/
def freeTable (table : Nat → Nat → Nat) (below : Nat → Program) (b : Nat) : Program :=
  breadOf b ++ (entries table b).flatMap below ++ brelseOf b ++ bfree sb b

/-- Truncate an inode. -/
def itrunc (inum : Nat) (addrs : Nat → Nat) (table : Nat → Nat → Nat) : Program :=
  let slot (n : Nat) (below : Nat → Program) : Program := if addrs n ≠ 0 then below (addrs n) else []
  (List.range NDIRECT).flatMap (fun n => slot n (bfree sb)) ++
  slot NDIRECT (freeTable sb table (bfree sb)) ++
  slot (NDIRECT + 1) (freeTable sb table (freeTable sb table (bfree sb))) ++
  slot (NDIRECT + 2) (freeTable sb table (freeTable sb table (freeTable sb table (bfree sb)))) ++
  iupdate sb inum

/-- `iput` of the last reference to an inode without links. -/
def iputLast (inum : Nat) (addrs : Nat → Nat) (table : Nat → Nat → Nat) : Program :=
  itrunc sb inum addrs table ++ iupdate sb inum

end Files

/-! ## The machine -/

/-- What a process has still to do; `held` and `dirtied` say what it has done so far. -/
structure Worker where
  rest : Program
  committing : Bool
  /-- The blocks whose buffers it uses. -/
  held : Finset Nat
  /-- The blocks that the operation has written to the log. -/
  dirtied : Finset Nat

structure Machine where
  cache : State Unit
  /-- `log.lh`. -/
  lh : List Nat
  outstanding : Nat
  committing : Bool
  worker : Nat → Option Worker

inductive Turn where
  /-- Process `k` is admitted by `begin_op` with this to do. -/
  | beginOp (k : Nat) (p : Program)
  /-- Process `k` does the next thing of its program. -/
  | run (k : Nat)
  /-- Process `k` calls `end_op`. -/
  | endOp (k : Nat)
  /-- The commit of process `k` is done. -/
  | committed (k : Nat)

/-- The block that is asked for. -/
def Ev.asks : Ev → Option Nat
  | .io .bget b => some b
  | _ => none

theorem Ev.eq_of_asks {e : Ev} {b : Nat} (h : b ∈ e.asks) : e = .io .bget b := by
  cases e with
  | clear => cases h
  | io op c => cases op <;> cases h; rfl

/-- The operations themselves never call `bwrite`. -/
def Ev.isOperation : Ev → Bool
  | .io .bwrite _ | .io .written _ | .clear => false
  | .io _ _ => true

/-- The use of the buffer of `b` by process `k`. -/
def useOf (k b : Nat) : Nat := Nat.pair k b

def Io.action (k b : Nat) : Io → Action Unit
  | .bget => .bread (useOf k b) b
  | .lock => .lock (useOf k b)
  | .read => .read (useOf k b)
  | .logWrite => .logWrite (useOf k b)
  | .bwrite => .bwrite (useOf k b)
  | .written => .written (useOf k b)
  | .brelse => .brelse (useOf k b)
  | .unref => .unref (useOf k b)

namespace Machine

variable (sb : Superblock) (m : Machine)

/-- After `initlog`. -/
def init : Machine where
  cache := .binit (fun _ => ()) fun _ => ()
  lh := []
  outstanding := 0
  committing := false
  worker := fun _ => none

/-- The checks of `log_write`; the log has `sb.nlog` blocks. -/
def logOk : Io → Bool
  | .logWrite => decide (m.lh.length < LOGSIZE ∧ m.lh.length < sb.nlog - 1 ∧ 1 ≤ m.outstanding)
  | _ => true

/-- `log_write` records the block. -/
def record (b : Nat) : Io → List Nat
  | .logWrite => if b ∈ m.lh then m.lh else m.lh ++ [b]
  | _ => m.lh

end Machine

def Worker.after (w : Worker) (rest : Program) (b : Nat) : Io → Worker
  | .bget => { w with rest := rest, held := insert b w.held }
  | .unref => { w with rest := rest, held := w.held.erase b }
  | .logWrite => { w with rest := rest, dirtied := insert b w.dirtied }
  | _ => { w with rest := rest }

namespace Machine

variable (sb : Superblock) (m : Machine)

def setWorker (k : Nat) (w : Option Worker) : Machine := { m with worker := Function.update m.worker k w }

/-- Do the next thing of the program of `k`. There is no result if the kernel panics, or
    if `k` has to wait. -/
def run (k : Nat) (w : Worker) : Option Machine :=
  match w.rest with
  | [] => none
  | .clear :: rest => some (setWorker { m with lh := [] } k (some { w with rest := rest }))
  | .io op b :: rest =>
    if m.logOk sb op then (Bio.step m.cache (op.action k b)).map fun cache =>
      setWorker { m with cache := cache, lh := m.record b op } k (some (w.after rest b op))
    else none

def step : Turn → Option Machine
  | .beginOp k p =>
    if m.worker k = none ∧ p.all Ev.isOperation ∧ m.committing = false ∧
        m.lh.length + (m.outstanding + 1) * MAXOPBLOCKS ≤ LOGSIZE then
      some (setWorker { m with outstanding := m.outstanding + 1 } k (some ⟨p, false, ∅, ∅⟩))
    else none
  | .run k => (m.worker k).bind (m.run sb k)
  | .endOp k =>
    (m.worker k).bind fun w =>
      if w.rest = [] ∧ w.committing = false ∧ w.held = ∅ then
        if m.outstanding - 1 = 0 then
          some (setWorker { m with outstanding := 0, committing := true } k (some ⟨commit sb m.lh, true, ∅, ∅⟩))
        else some (setWorker { m with outstanding := m.outstanding - 1 } k none)
      else none
  | .committed k =>
    (m.worker k).bind fun w =>
      if w.rest = [] ∧ w.committing = true then some (setWorker { m with committing := false } k none) else none

end Machine

end Xv6.Bio
