-- SUMMARY: The buffer cache of bio.c, with uses of buffers that run step by step.
import Xv6.Base.Links
import Xv6.FileSystem.Format

/-! # The buffer cache

A use of a buffer begins with `bread` and ends with `brelse`. Uses by all processes run
at the same time, one step after another; a process that has several buffers is in
several uses. What happens under `bcache.lock` is one step. The disk answers while the
buffer is locked, so that `iderw` is one step, too.

`last` is no part of the kernel. It says for each block what was last stored there by
somebody who marked the buffer, by `log_write` or `bwrite`; at first it is the disk.
-/

namespace Xv6.Bio

def ROOTDEV : Nat := 1

/-- Index of a buffer. -/
abbrev Slot := Fin NBUF

structure Buf (Data : Type) where
  valid : Bool
  dirty : Bool
  dev : Nat
  blockno : Nat
  /-- The use that has locked the buffer. -/
  lock : Option Nat
  refcnt : Nat
  data : Data

/-- Where a use of a buffer stands. -/
inductive Point where
  /-- `bget` has found the buffer, and waits for its lock. -/
  | locking
  /-- `bread` has locked the buffer. -/
  | reading
  /-- `bread` has returned, and what was stored is marked. -/
  | holding
  /-- The data were changed and the buffer is not marked yet. -/
  | stored
  /-- `bwrite` waits for the disk. -/
  | writing
  /-- `brelse` has unlocked the buffer. -/
  | releasing
  deriving DecidableEq, Repr

structure Use where
  block : Nat
  slot : Slot
  point : Point
  deriving DecidableEq, Repr

structure State (Data : Type) where
  buf : Slot → Buf Data
  links : Links Slot
  use : Nat → Option Use
  disk : Nat → Data
  last : Nat → Data

namespace State

variable {Data : Type} (s : State Data)

/-- The loop of `binit`. -/
def linkAll : Links Slot :=
  (List.finRange NBUF).foldl Links.pushFront { next := fun _ => none, prev := fun _ => none }

/-- The cache after `binit`. -/
def binit (data : Slot → Data) (disk : Nat → Data) : State Data where
  buf := fun i =>
    { valid := false, dirty := false, dev := 0, blockno := 0, lock := none, refcnt := 0, data := data i }
  links := linkAll
  use := fun _ => none
  disk := disk
  last := disk

def updBuf (i : Slot) (f : Buf Data → Buf Data) : State Data :=
  { s with buf := Function.update s.buf i (f (s.buf i)) }

def setUse (u : Nat) (x : Option Use) : State Data := { s with use := Function.update s.use u x }

/-- The buffer caches the block. -/
def caches (b : Nat) (i : Slot) : Bool := decide ((s.buf i).dev = ROOTDEV ∧ (s.buf i).blockno = b)

/-- The buffer can be recycled. -/
def unused (i : Slot) : Bool := decide ((s.buf i).refcnt = 0 ∧ (s.buf i).dirty = false)

/-- Look through the cache for a block; if it is not there, recycle a buffer. There is no
    result if there are no buffers. -/
def bget (b : Nat) : Option (State Data × Slot) :=
  match Links.walk s.links.next (s.caches b) (NBUF + 1) none with
  | some (some i) => some (s.updBuf i fun x => { x with refcnt := x.refcnt + 1 }, i)
  | some none =>
    match Links.walk s.links.prev s.unused (NBUF + 1) none with
    | some (some i) => some (s.updBuf i fun x =>
        { x with dev := ROOTDEV, blockno := b, valid := false, dirty := false, refcnt := 1 }, i)
    | _ => none
  | none => none

/-- Write a dirty buffer to disk, or read a buffer from disk. -/
def iderw (i : Slot) : State Data :=
  if (s.buf i).dirty then
    { s.updBuf i fun x => { x with valid := true, dirty := false } with
      disk := Function.update s.disk (s.buf i).blockno (s.buf i).data }
  else s.updBuf i fun x => { x with data := s.disk x.blockno, valid := true, dirty := false }

/-- Set `B_DIRTY`. -/
def mark (i : Slot) : State Data :=
  { s.updBuf i fun x => { x with dirty := true } with
    last := Function.update s.last (s.buf i).blockno (s.buf i).data }

/-- The end of `brelse`: if no one is waiting, move the buffer to the head of the list. -/
def unref (i : Slot) : State Data :=
  if (s.buf i).refcnt - 1 = 0 then
    { s.updBuf i fun x => { x with refcnt := x.refcnt - 1 } with links := (s.links.unlink i).pushFront i }
  else s.updBuf i fun x => { x with refcnt := x.refcnt - 1 }

/-- The use `u`, if it stands at one of these points, does `f` to its buffer. -/
def turn (u : Nat) (points : List Point) (f : Slot → State Data) (next : Option Point) : Option (State Data) :=
  match s.use u with
  | some x => if x.point ∈ points then
      some ((f x.slot).setUse u (next.map fun p => { x with point := p })) else none
  | none => none

/-- The buffer of `u` is not locked. -/
def unlocked (u : Nat) : Bool :=
  match s.use u with
  | some x => (s.buf x.slot).lock.isNone
  | none => true

end State

inductive Action (Data : Type) where
  /-- `u` looks for block `b`. -/
  | bread (u b : Nat)
  /-- `u` locks the buffer that it has found. -/
  | lock (u : Nat)
  /-- `bread` of `u` returns, after it has read the disk if need be. -/
  | read (u : Nat)
  /-- `u` changes the data of its buffer. -/
  | store (u : Nat) (data : Data)
  | logWrite (u : Nat)
  | bwrite (u : Nat)
  /-- The disk has written the buffer of `u`. -/
  | written (u : Nat)
  | brelse (u : Nat)
  /-- `brelse` of `u` returns. -/
  | unref (u : Nat)

variable {Data : Type}

/-- Whoever has a buffer stores and marks as often as it likes, and like all of the
    kernel marks what it stored before it releases the buffer. -/
def step (s : State Data) : Action Data → Option (State Data)
  | .bread u b =>
    if s.use u = none then (s.bget b).map fun r => r.1.setUse u (some ⟨b, r.2, .locking⟩) else none
  | .lock u =>
    if s.unlocked u then s.turn u [.locking] (fun i => s.updBuf i fun x => { x with lock := some u }) (some .reading)
    else none
  | .read u => s.turn u [.reading] (fun i => if (s.buf i).valid then s else s.iderw i) (some .holding)
  | .store u data =>
    s.turn u [.holding, .stored] (fun i => s.updBuf i fun x => { x with data := data }) (some .stored)
  | .logWrite u => s.turn u [.holding, .stored] s.mark (some .holding)
  | .bwrite u => s.turn u [.holding, .stored] s.mark (some .writing)
  | .written u => s.turn u [.writing] s.iderw (some .holding)
  | .brelse u => s.turn u [.holding] (fun i => s.updBuf i fun x => { x with lock := none }) (some .releasing)
  | .unref u => s.turn u [.releasing] s.unref none

/-- The states that can be reached from `s`. -/
inductive Run (s : State Data) : State Data → Prop where
  | refl : Run s s
  | step {t v : State Data} (h : Run s t) (a : Action Data) (hstep : step t a = some v) : Run s v

end Xv6.Bio
