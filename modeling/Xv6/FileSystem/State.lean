-- SUMMARY: The kernel's file system state, the panics that end a run, and the buffer and log calls of one running operation.
import Xv6.Base.Wp
import Xv6.FileSystem.Format
import Mathlib.Logic.Function.Basic

/-! # State of the file system

`Fs` is what `fs.c` works on: the superblock variable, the disk as the buffer
cache shows it, the inode cache, and the part of the log that `log_write`,
`begin_op` and `end_op` look at. Operations run one at a time, so a buffer is
its block's current contents and the spin locks disappear. The sleep lock of an
inode stays: an operation that locks one inode twice never returns.

The device argument is dropped, there is one disk.
-/

namespace Xv6

/-! ## How a run can end without returning -/

/-- The panics of `fs.c`, `file.c`, `sysfile.c`, `log.c` and `ide.c`, and a sleep
    that no other process can end. -/
inductive Stop where
  | incorrectBlockno
  | tooBigTransaction
  | logWriteOutsideOfTrans
  | ballocOutOfBlocks
  | freeingFreeBlock
  | iallocNoInodes
  | igetNoInodes
  | ilock
  | ilockNoType
  | iunlock
  | bmapOutOfRange
  | dirlookupNotDir
  | dirlookupRead
  | dirlinkRead
  | dirlink
  | isdiremptyReadi
  | unlinkNlink
  | unlinkWritei
  | createDots
  | createDirlink
  | filedup
  | fileclose
  | fileread
  | filewrite
  | shortFilewrite
  | asleep
  deriving DecidableEq, Repr

/-! ## State -/

/-- In-memory copy of an inode, one entry of `icache`. -/
structure Inode extends Dinode where
  inum : Nat
  ref : Int
  locked : Bool
  valid : Bool

/-- `struct log`, without the disk side of a commit. The block numbers of `lh`
    are `lh.block[0 .. lh.n)`. `writes` is a history variable: every block passed to
    `log_write` with what its buffer had then, newest first. -/
structure Log where
  size : Nat
  outstanding : Nat
  lh : List Nat
  writes : List (Nat × Bytes)

/-- An entry of `devsw`: what the driver of a device returns. Drivers do not work
    on the file system; `read` also gives the bytes it stored. -/
structure Dev where
  read : Option (UInt32 → Int × List UInt8)
  write : Option (Bytes → UInt32 → Int)

structure Fs where
  sb : Superblock
  disk : Nat → Bytes
  icache : Fin NINODE → Inode
  log : Log
  devsw : Int16 → Dev

/-- A pointer into the inode cache. -/
abbrev InodePtr := Fin NINODE

/-- Code of the file system. -/
abbrev FS := Prog Fs Stop

namespace Fs

/-- Replace the contents of one block. -/
def setBlock (s : Fs) (b : Nat) (c : Bytes) : Fs :=
  { s with disk := Function.update s.disk b c }

/-- Replace one entry of the inode cache. -/
def setInode (s : Fs) (ip : InodePtr) (x : Inode) : Fs :=
  { s with icache := Function.update s.icache ip x }

@[simp] theorem setBlock_sb (s : Fs) (b : Nat) (c : Bytes) : (s.setBlock b c).sb = s.sb := rfl
@[simp] theorem setBlock_icache (s : Fs) (b : Nat) (c : Bytes) :
    (s.setBlock b c).icache = s.icache := rfl
@[simp] theorem setBlock_log (s : Fs) (b : Nat) (c : Bytes) : (s.setBlock b c).log = s.log := rfl
@[simp] theorem setBlock_devsw (s : Fs) (b : Nat) (c : Bytes) :
    (s.setBlock b c).devsw = s.devsw := rfl

@[simp] theorem setBlock_disk_same (s : Fs) (b : Nat) (c : Bytes) :
    (s.setBlock b c).disk b = c := by
  simp [setBlock]

theorem setBlock_disk_ne (s : Fs) {b b' : Nat} (c : Bytes) (h : b' ≠ b) :
    (s.setBlock b c).disk b' = s.disk b' := by
  simp [setBlock, h]

@[simp] theorem setInode_sb (s : Fs) (ip : InodePtr) (x : Inode) : (s.setInode ip x).sb = s.sb := rfl
@[simp] theorem setInode_disk (s : Fs) (ip : InodePtr) (x : Inode) :
    (s.setInode ip x).disk = s.disk := rfl
@[simp] theorem setInode_log (s : Fs) (ip : InodePtr) (x : Inode) :
    (s.setInode ip x).log = s.log := rfl
@[simp] theorem setInode_devsw (s : Fs) (ip : InodePtr) (x : Inode) :
    (s.setInode ip x).devsw = s.devsw := rfl

@[simp] theorem setInode_icache_same (s : Fs) (ip : InodePtr) (x : Inode) :
    (s.setInode ip x).icache ip = x := by
  simp [setInode]

@[simp] theorem setInode_setInode (s : Fs) (ip : InodePtr) (x y : Inode) :
    (s.setInode ip x).setInode ip y = s.setInode ip y := by
  simp [setInode, Function.update_idem]

theorem setInode_icache_ne (s : Fs) {ip jp : InodePtr} (x : Inode) (h : jp ≠ ip) :
    (s.setInode ip x).icache jp = s.icache jp := by
  simp [setInode, h]

/-- The file system with another log. -/
def setLog (s : Fs) (l : Log) : Fs := { s with log := l }

@[simp] theorem setLog_sb (s : Fs) (l : Log) : (s.setLog l).sb = s.sb := rfl
@[simp] theorem setLog_disk (s : Fs) (l : Log) : (s.setLog l).disk = s.disk := rfl
@[simp] theorem setLog_icache (s : Fs) (l : Log) : (s.setLog l).icache = s.icache := rfl
@[simp] theorem setLog_log (s : Fs) (l : Log) : (s.setLog l).log = l := rfl
@[simp] theorem setLog_devsw (s : Fs) (l : Log) : (s.setLog l).devsw = s.devsw := rfl

end Fs

/-! ## Buffers -/

/-- `bread`: the disk driver refuses block numbers from `FSSIZE` on. -/
def bread (b : Nat) : FS Bytes := do
  if FSSIZE ≤ b then throw .incorrectBlockno
  else
    let s ← get
    pure (s.disk b)

/-- Assign to `bp->data` of a buffer that is held. -/
def bmodify (b : Nat) (f : Bytes → Bytes) : FS Unit :=
  modify fun s => s.setBlock b (f (s.disk b))

/-- Read-only access to the inode an `ip` points to. -/
def deref (ip : InodePtr) : FS Inode := do
  let s ← get
  pure (s.icache ip)

/-- Assign to fields of `*ip`. -/
def imodify (ip : InodePtr) (f : Inode → Inode) : FS Unit :=
  modify fun s => s.setInode ip (f (s.icache ip))

/-! ## Log -/

namespace Log

/-- Every block number passed to `log_write`, newest first. -/
def trace (l : Log) : List Nat := l.writes.map Prod.fst

/-- Record a block number, absorbing one that is recorded already. -/
def absorb (l : Log) (b : Nat) (c : Bytes) : Log :=
  { l with lh := if b ∈ l.lh then l.lh else l.lh ++ [b], writes := (b, c) :: l.writes }

@[simp] theorem absorb_size (l : Log) (b : Nat) (c : Bytes) : (l.absorb b c).size = l.size := rfl
@[simp] theorem absorb_outstanding (l : Log) (b : Nat) (c : Bytes) :
    (l.absorb b c).outstanding = l.outstanding := rfl
@[simp] theorem absorb_trace (l : Log) (b : Nat) (c : Bytes) : (l.absorb b c).trace = b :: l.trace := rfl

/-- Record blocks, the last one first. -/
def absorbAll (l : Log) (ws : List (Nat × Bytes)) : Log := ws.foldr (fun w l => l.absorb w.1 w.2) l

theorem absorbAll_append (l : Log) (ws vs : List (Nat × Bytes)) :
    l.absorbAll (ws ++ vs) = (l.absorbAll vs).absorbAll ws :=
  List.foldr_append

theorem absorbAll_outstanding (l : Log) (ws : List (Nat × Bytes)) : (l.absorbAll ws).outstanding = l.outstanding := by
  induction ws with
  | nil => rfl
  | cons w ws ih => exact ih

theorem absorbAll_trace (l : Log) (ws : List (Nat × Bytes)) : (l.absorbAll ws).trace = ws.map Prod.fst ++ l.trace := by
  induction ws with
  | nil => rfl
  | cons w ws ih => exact congrArg (w.1 :: ·) ih

/-- One more operation. -/
def start (l : Log) : Log := { l with outstanding := l.outstanding + 1 }

/-- One operation less; the last one commits. -/
def finish (l : Log) : Log :=
  { l with outstanding := l.outstanding - 1, lh := if l.outstanding - 1 = 0 then [] else l.lh }

@[simp] theorem start_outstanding (l : Log) : l.start.outstanding = l.outstanding + 1 := rfl
@[simp] theorem start_trace (l : Log) : l.start.trace = l.trace := rfl
@[simp] theorem finish_outstanding (l : Log) : l.finish.outstanding = l.outstanding - 1 := rfl
@[simp] theorem finish_trace (l : Log) : l.finish.trace = l.trace := rfl

end Log

/-- `log_write` of the buffer of block `b`. -/
def logWrite (b : Nat) : FS Unit := do
  let s ← get
  if s.log.lh.length ≥ LOGSIZE ∨ s.log.lh.length ≥ s.log.size - 1 then throw .tooBigTransaction
  else if s.log.outstanding < 1 then throw .logWriteOutsideOfTrans
  else set { s with log := s.log.absorb b (s.disk b) }

/-- `begin_op`; nobody else runs, so a full log is waited for forever. -/
def beginOp : FS Unit := do
  let s ← get
  if s.log.lh.length + (s.log.outstanding + 1) * MAXOPBLOCKS > LOGSIZE then throw .asleep
  else set { s with log := { s.log with outstanding := s.log.outstanding + 1 } }

/-- `end_op`: the last operation commits. A commit copies the logged buffers to
    their home blocks and so leaves the disk as the cache shows it. -/
def endOp : FS Unit := do
  let s ← get
  let outstanding := s.log.outstanding - 1
  if outstanding = 0 then set { s with log := { s.log with outstanding := 0, lh := [] } }
  else set { s with log := { s.log with outstanding := outstanding } }

/-! ## Rules -/

open Prog

section Rules

variable {s : Fs} {E : Stop → Prop}

theorem wp_bread {b : Nat} {Q : Bytes → Fs → Prop} (hb : b < FSSIZE) :
    wp (bread b) Q E s ↔ Q (s.disk b) s := by
  have h : ¬ FSSIZE ≤ b := not_le.mpr hb
  simp [bread, h]

@[simp] theorem wp_bmodify {b : Nat} {f : Bytes → Bytes} {Q : Unit → Fs → Prop} :
    wp (bmodify b f) Q E s ↔ Q () (s.setBlock b (f (s.disk b))) := by
  simp [bmodify]

@[simp] theorem wp_deref {ip : InodePtr} {Q : Inode → Fs → Prop} :
    wp (deref ip) Q E s ↔ Q (s.icache ip) s := by
  simp [deref]

@[simp] theorem wp_imodify {ip : InodePtr} {f : Inode → Inode} {Q : Unit → Fs → Prop} :
    wp (imodify ip f) Q E s ↔ Q () (s.setInode ip (f (s.icache ip))) := by
  simp [imodify]

/-- The panics of `log_write` are admitted, the second one unless a transaction is open. -/
structure MayLog (E : Stop → Prop) (s : Fs) : Prop where
  full : E .tooBigTransaction
  outside : 1 ≤ s.log.outstanding ∨ E .logWriteOutsideOfTrans

theorem MayLog.congr {t : Fs} (h : MayLog E s) (heq : t.log.outstanding = s.log.outstanding) :
    MayLog E t :=
  ⟨h.full, heq.symm ▸ h.outside⟩

/-- The next `log_write` finds room and an open transaction, unless the panic is admitted. -/
structure MayWrite (E : Stop → Prop) (l : Log) : Prop where
  full : (l.lh.length < LOGSIZE ∧ l.lh.length < l.size - 1) ∨ E .tooBigTransaction
  outside : 1 ≤ l.outstanding ∨ E .logWriteOutsideOfTrans

theorem MayLog.write (h : MayLog E s) : MayWrite E s.log := ⟨.inr h.full, h.outside⟩

/-- `log_write` may be called for the blocks `B` again and again, starting from logs in `P`. -/
structure MayWriteAll (E : Stop → Prop) (P : Log → Prop) (B : Nat → Prop) : Prop where
  write : ∀ l, P l → MayWrite E l
  absorb : ∀ l b c, P l → B b → P (l.absorb b c)

theorem MayWriteAll.absorbAll {P : Log → Prop} {B : Nat → Prop} (h : MayWriteAll E P B) {l : Log} (hl : P l)
    {ws : List (Nat × Bytes)} (hws : ∀ b ∈ ws.map Prod.fst, B b) : P (l.absorbAll ws) := by
  induction ws with
  | nil => exact hl
  | cons w ws ih =>
    exact h.absorb _ w.1 w.2 (ih fun c hc => hws c (List.mem_cons_of_mem _ hc)) (hws w.1 List.mem_cons_self)

namespace Log

/-- There is an open transaction, with more room than the blocks `B` can take up. -/
structure HasRoom (l : Log) (B : Finset Nat) : Prop where
  opened : 1 ≤ l.outstanding
  logsize : l.lh.length + (B.filter (· ∉ l.lh)).card < LOGSIZE
  size : l.lh.length + (B.filter (· ∉ l.lh)).card < l.size - 1

/-- A block that is recorded does not take up room again. -/
theorem absorb_room {l : Log} {B : Finset Nat} {b : Nat} {c : Bytes} (hb : b ∈ B) :
    (l.absorb b c).lh.length + (B.filter (· ∉ (l.absorb b c).lh)).card = l.lh.length + (B.filter (· ∉ l.lh)).card := by
  unfold absorb
  by_cases hmem : b ∈ l.lh
  · simp only [if_pos hmem]
  · have herase : B.filter (· ∉ l.lh ++ [b]) = (B.filter (· ∉ l.lh)).erase b := by
      ext x
      simp only [Finset.mem_filter, Finset.mem_erase, List.mem_append, List.mem_singleton, not_or]
      tauto
    have hin : b ∈ B.filter (· ∉ l.lh) := Finset.mem_filter.mpr ⟨hb, hmem⟩
    have hcard := Finset.card_erase_add_one hin
    simp only [if_neg hmem, herase, List.length_append, List.length_singleton]
    omega

theorem mayWriteAll_hasRoom {E : Stop → Prop} (B : Finset Nat) : MayWriteAll E (HasRoom · B) (· ∈ B) where
  write := fun _ h => ⟨.inl ⟨by have := h.logsize; omega, by have := h.size; omega⟩, .inl h.opened⟩
  absorb := fun l b c h hb => by
    have hroom := @absorb_room l _ b c hb
    exact ⟨h.opened, hroom ▸ h.logsize, hroom ▸ h.size⟩

end Log

theorem MayLog.writeAll (h : MayLog E s) :
    MayWriteAll E (fun l => l.outstanding = s.log.outstanding) fun _ => True where
  write := fun _ hl => ⟨.inr h.full, hl ▸ h.outside⟩
  absorb := fun _ _ _ hl _ => hl

/-- `log_write` records the block or panics, and only records inside a transaction. -/
theorem wp_logWrite {b : Nat} {Q : Unit → Fs → Prop} (hlog : MayWrite E s.log)
    (h : 1 ≤ s.log.outstanding → Q () { s with log := s.log.absorb b (s.disk b) }) :
    wp (logWrite b) Q E s := by
  simp only [logWrite, wp_bind, wp_get]
  split
  · next hfull =>
    refine hlog.full.resolve_left fun hroom => ?_
    rcases hfull with hfull | hfull
    · exact absurd hroom.1 (not_lt.mpr hfull)
    · exact absurd hroom.2 (not_lt.mpr hfull)
  · split
    · next hout => exact hlog.outside.resolve_left (not_le.mpr hout)
    · next hout => exact h (not_lt.mp hout)

/-- `begin_op` finds room for another operation. -/
theorem wp_beginOp_of_room {Q : Unit → Fs → Prop}
    (hroom : s.log.lh.length + (s.log.outstanding + 1) * MAXOPBLOCKS ≤ LOGSIZE) (h : Q () (s.setLog s.log.start)) :
    wp beginOp Q E s := by
  simp only [beginOp, wp_bind, wp_get, if_neg (not_lt.mpr hroom)]
  exact h

theorem wp_beginOp {Q : Unit → Fs → Prop} (hasleep : E .asleep) (h : Q () (s.setLog s.log.start)) :
    wp beginOp Q E s := by
  simp only [beginOp, wp_bind, wp_get]
  split
  · exact hasleep
  · exact h

@[simp] theorem wp_endOp {Q : Unit → Fs → Prop} :
    wp endOp Q E s ↔ Q () (s.setLog s.log.finish) := by
  simp only [endOp, wp_bind, wp_get]
  split
  · next h0 => simp [Log.finish, Fs.setLog, h0]
  · next h0 => simp [Log.finish, Fs.setLog, h0]

end Rules

end Xv6
