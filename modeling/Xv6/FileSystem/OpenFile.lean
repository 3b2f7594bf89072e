-- SUMMARY: Open files: reading, writing and closing through a struct file.
import Xv6.FileSystem.Inodes

/-! # Open files

The part of `file.c` that works on inodes. A `struct file` is a value here: what
`filewrite` and `fileread` assign to `f->off`, and `fileclose` to `f->ref`, is in
the file they return. The positional calls assign nothing to `*f`.
-/

namespace Xv6

inductive FdType where
  | none
  | pipe
  | inode
  deriving DecidableEq, Repr

/-- What `piperead` and `pipewrite` return. Pipes do not work on the file system. -/
structure PipeEnd where
  read : Int32 → Int × List UInt8
  write : Bytes → Int32 → Int

/-- `struct file`. -/
structure OpenFile where
  type : FdType
  ref : Int
  readable : Bool
  writable : Bool
  pipe : PipeEnd
  ip : InodePtr
  off : UInt32

/-- The bytes written in one transaction at most: `((MAXOPBLOCKS-1-1-2) / 2) * 512`. -/
def maxChunk : Nat := ((MAXOPBLOCKS - 1 - 1 - 2) / 2) * 512

/-- One transaction of `filewrite` or `pfilewrite`. -/
def writeChunk (ip : InodePtr) (src : Bytes) (off : UInt32) (n1 : Nat) : FS Int := do
  beginOp
  ilock ip
  let r ← writei ip src off (UInt32.ofNat n1)
  iunlock ip
  endOp
  pure r

/-- The loop of `filewrite`; returns the final `i` and the file. Every round writes
    at least one byte, so `n` rounds are enough. -/
def filewriteLoop (addr : Bytes) (n : Nat) : (fuel i : Nat) → OpenFile → FS (Nat × OpenFile)
  | 0, i, f => pure (i, f)
  | fuel + 1, i, f =>
    if i < n then do
      let n1 := min (n - i) maxChunk
      let r ← writeChunk f.ip (fun j => addr (i + j)) f.off n1
      let f := if r > 0 then { f with off := f.off + UInt32.ofInt r } else f
      if r < 0 then pure (i, f)
      else if r ≠ n1 then throw .shortFilewrite
      else filewriteLoop addr n fuel (i + n1) f
    else pure (i, f)

/-- Write to file `f`. -/
def filewrite (f : OpenFile) (addr : Bytes) (n : Int32) : FS (Int × OpenFile) :=
  if f.writable = false then pure (-1, f)
  else match f.type with
    | .pipe => pure (f.pipe.write addr n, f)
    | .inode => do
      let r ← filewriteLoop addr n.toInt.toNat n.toInt.toNat 0 f
      pure (if (r.1 : Int) = n.toInt then n.toInt else -1, r.2)
    | .none => throw .filewrite

/-- The loop of `pfilewrite`. -/
def pfilewriteLoop (ip : InodePtr) (addr : Bytes) (n : Nat) (off : UInt32) : (fuel i : Nat) → FS Nat
  | 0, i => pure i
  | fuel + 1, i =>
    if i < n then do
      let n1 := min (n - i) maxChunk
      let r ← writeChunk ip (fun j => addr (i + j)) off n1
      if r < 0 then pure i
      else if r ≠ n1 then throw .shortFilewrite
      else pfilewriteLoop ip addr n off fuel (i + n1)
    else pure i

def pfilewrite (f : OpenFile) (addr : Bytes) (n off : Int32) : FS Int :=
  if f.writable = false then pure (-1)
  else match f.type with
    | .pipe => pure (f.pipe.write addr n)
    | .inode => do
      let i ← pfilewriteLoop f.ip addr n.toInt.toNat off.toUInt32 n.toInt.toNat 0
      pure (if (i : Int) = n.toInt then n.toInt else -1)
    | .none => throw .filewrite

/-- Read from file `f`. The result is the return value, the bytes at `addr` and the file. -/
def fileread (f : OpenFile) (n : Int32) : FS (Int × List UInt8 × OpenFile) :=
  if f.readable = false then pure (-1, [], f)
  else match f.type with
    | .pipe => pure ((f.pipe.read n).1, (f.pipe.read n).2, f)
    | .inode => do
      ilock f.ip
      let r ← readi f.ip f.off n.toUInt32
      iunlock f.ip
      pure (r.1, r.2, if r.1 > 0 then { f with off := f.off + UInt32.ofInt r.1 } else f)
    | .none => throw .fileread

def pfileread (f : OpenFile) (n off : Int32) : FS (Int × List UInt8) :=
  if f.readable = false then pure (-1, [])
  else match f.type with
    | .pipe => pure (f.pipe.read n)
    | .inode => do
      ilock f.ip
      let r ← readi f.ip off.toUInt32 n.toUInt32
      iunlock f.ip
      pure r
    | .none => throw .fileread

/-- Close file `f`. -/
def fileclose (f : OpenFile) : FS OpenFile :=
  if f.ref < 1 then throw .fileclose
  else if f.ref - 1 > 0 then pure { f with ref := f.ref - 1 }
  else match f.type with
    | .inode => do
      beginOp
      iput f.ip
      endOp
      pure { f with ref := 0, type := .none }
    | _ => pure { f with ref := 0, type := .none }

end Xv6
