-- SUMMARY: Inodes: the block map, truncation, the inode cache, and reading and writing file contents.
import Xv6.FileSystem.Blocks

/-! # Inodes

The inode part of `fs.c`, function by function. `ip` is an index into the inode
cache. A buffer `src` is a byte array, the bytes stored through `dst` are
returned.
-/

namespace Xv6

/-! ## Block map -/

/-- `if((addr = ip->addrs[k]) == 0) ip->addrs[k] = addr = balloc(ip->dev)`. -/
def loadAddr (ip : InodePtr) (k : Fin NADDRS) : FS UInt32 := do
  let x ← deref ip
  if x.addrs k = 0 then do
    let addr ← balloc
    imodify ip fun x => { x with addrs := Function.update x.addrs k addr }
    pure addr
  else pure (x.addrs k)

/-- Load entry `i` of the table in block `addr`, allocating: the step that `bmap`
    takes once for every level of the tree. -/
def loadEntry (addr : UInt32) (i : Nat) : FS UInt32 := do
  let bp ← bread addr.toNat
  if bp.word i = 0 then do
    let a ← balloc
    bmodify addr.toNat (·.setWord i a)
    logWrite addr.toNat
    pure a
  else pure (bp.word i)

/-- The disk block address of the `bn`th block of `ip`. If there is no such block,
    `bmap` allocates one. -/
def bmap (ip : InodePtr) (bn : Nat) : FS UInt32 :=
  if h : bn < NDIRECT then loadAddr ip ⟨bn, lt_NADDRS h⟩
  else
    let bn := bn - NDIRECT
    if bn < NINDIRECT then do
      let addr ← loadAddr ip 10
      loadEntry addr bn
    else
      let bn := bn - NINDIRECT
      if bn < NDOUBINDIRECT then do
        let addr ← loadAddr ip 11
        let addr ← loadEntry addr (bn / NINDIRECT)
        loadEntry addr (bn % NINDIRECT)
      else
        let bn := bn - NDOUBINDIRECT
        if bn < NTRIPINDIRECT then do
          let addr ← loadAddr ip 12
          let addr ← loadEntry addr (bn / NDOUBINDIRECT)
          let tmp := bn % NDOUBINDIRECT
          let addr ← loadEntry addr (tmp / NINDIRECT)
          loadEntry addr (tmp % NINDIRECT)
        else throw .bmapOutOfRange

/-! ## Inode cache -/

/-- Copy a modified in-memory inode to disk. -/
def iupdate (ip : InodePtr) : FS Unit := do
  let s ← get
  let x ← deref ip
  let _ ← bread (s.sb.IBLOCK x.inum)
  bmodify (s.sb.IBLOCK x.inum) fun bp => Dinode.put bp (x.inum % IPB) x.toDinode
  logWrite (s.sb.IBLOCK x.inum)

/-- The cache entry for inode `inum`, a recycled one if it is not cached. -/
def iget (inum : Nat) : FS InodePtr := do
  let s ← get
  match (List.finRange NINODE).find?
      fun ip => decide (0 < (s.icache ip).ref) && decide ((s.icache ip).inum = inum) with
  | some ip => do
    imodify ip fun x => { x with ref := x.ref + 1 }
    pure ip
  | none =>
    match (List.finRange NINODE).find? fun ip => decide ((s.icache ip).ref = 0) with
    | some ip => do
      imodify ip fun x => { x with inum := inum, ref := 1, valid := false }
      pure ip
    | none => throw .igetNoInodes

/-- The loop of `ialloc` over the inode numbers still to try. -/
def iallocFrom (type : Int16) : List Nat → FS InodePtr
  | [] => throw .iallocNoInodes
  | inum :: rest => do
    let s ← get
    let bp ← bread (s.sb.IBLOCK inum)
    if (Dinode.get bp (inum % IPB)).type = 0 then do
      bmodify (s.sb.IBLOCK inum) fun bp => Dinode.put bp (inum % IPB) { Dinode.blank with type := type }
      logWrite (s.sb.IBLOCK inum)
      iget inum
    else iallocFrom type rest

def ialloc (type : Int16) : FS InodePtr := do
  let s ← get
  iallocFrom type (List.range' 1 (s.sb.ninodes - 1))

def idup (ip : InodePtr) : FS InodePtr := do
  imodify ip fun x => { x with ref := x.ref + 1 }
  pure ip

/-- Lock the given inode. Reads the inode from disk if necessary. -/
def ilock (ip : InodePtr) : FS Unit := do
  let x ← deref ip
  if x.ref < 1 then throw .ilock
  else if x.locked then throw .asleep
  else do
    imodify ip fun x => { x with locked := true }
    if x.valid then pure ()
    else do
      let s ← get
      let bp ← bread (s.sb.IBLOCK x.inum)
      imodify ip fun y =>
        { y with toDinode := Dinode.get bp (x.inum % IPB), valid := true }
      if (Dinode.get bp (x.inum % IPB)).type = 0 then throw .ilockNoType
      else pure ()

def iunlock (ip : InodePtr) : FS Unit := do
  let x ← deref ip
  if x.locked = false ∨ x.ref < 1 then throw .iunlock
  else imodify ip fun x => { x with locked := false }

/-! ## Truncation -/

/-- `for(j = 0; j < NINDIRECT; j++) if(a[j]) f(a[j])` over the table in block `addr`. -/
def forEntries (addr : UInt32) (f : UInt32 → FS Unit) : FS Unit := do
  let _ ← bread addr.toNat
  (List.range NINDIRECT).forM fun j => do
    let bp ← bread addr.toNat
    if bp.word j ≠ 0 then f (bp.word j) else pure ()

/-- Free what hangs off `ip->addrs[k]`, the block itself, and clear the entry. -/
def truncAddr (ip : InodePtr) (k : Fin NADDRS) (below : UInt32 → FS Unit) : FS Unit := do
  let x ← deref ip
  if x.addrs k ≠ 0 then do
    below (x.addrs k)
    bfree (x.addrs k).toNat
    imodify ip fun x => { x with addrs := Function.update x.addrs k 0 }
  else pure ()

/-- Discard the contents of an inode. -/
def itrunc (ip : InodePtr) : FS Unit := do
  -- direct
  (List.finRange NDIRECT).forM fun i =>
    truncAddr ip (i.castLE (by decide)) fun _ => pure ()
  -- indirect
  truncAddr ip 10 fun a => forEntries a fun b => bfree b.toNat
  -- doubly indirect
  truncAddr ip 11 fun a => forEntries a fun b => do
    forEntries b fun c => bfree c.toNat
    bfree b.toNat
  -- triple indirect
  truncAddr ip 12 fun a => forEntries a fun b => do
    forEntries b fun c => do
      forEntries c fun d => bfree d.toNat
      bfree c.toNat
    bfree b.toNat
  imodify ip fun x => { x with size := 0 }
  iupdate ip

/-- Drop a reference to an in-memory inode. The last reference to an inode
    without links frees it. -/
def iput (ip : InodePtr) : FS Unit := do
  let x ← deref ip
  if x.locked then throw .asleep
  else do
    imodify ip fun x => { x with locked := true }
    if x.valid = true ∧ x.nlink = 0 ∧ x.ref = 1 then do
      itrunc ip
      imodify ip fun x => { x with type := 0 }
      iupdate ip
      imodify ip fun x => { x with valid := false }
    else pure ()
    imodify ip fun x => { x with locked := false }
    imodify ip fun x => { x with ref := x.ref - 1 }

def iunlockput (ip : InodePtr) : FS Unit := do
  iunlock ip
  iput ip

/-! ## Contents -/

/-- The loop of `readi`. Every round copies at least one byte, so `n` rounds are
    enough. -/
def readLoop (ip : InodePtr) (n : Nat) : (fuel tot off : Nat) → FS (List UInt8)
  | 0, _, _ => pure []
  | fuel + 1, tot, off =>
    if tot < n then do
      let addr ← bmap ip (off / BSIZE)
      let bp ← bread addr.toNat
      let m := min (n - tot) (BSIZE - off % BSIZE)
      let rest ← readLoop ip n fuel (tot + m) (off + m)
      pure (bp.slice (off % BSIZE) m ++ rest)
    else pure []

/-- Read data from inode. The result is the return value and the bytes at `dst`. -/
def readi (ip : InodePtr) (off n : UInt32) : FS (Int × List UInt8) := do
  let s ← get
  let x ← deref ip
  if x.type = T_DEV then
    if x.major < 0 ∨ x.major.toInt ≥ NDEV then pure (-1, [])
    else match (s.devsw x.major).read with
      | none => pure (-1, [])
      | some f => pure (f n)
  else if off > x.size ∨ off + n < off then pure (-1, [])
  else do
    let n := if off + n > x.size then x.size - off else n
    let dst ← readLoop ip n.toNat n.toNat 0 off.toNat
    pure (n.toNat, dst)

/-- The loop of `writei`; returns the final `off`. -/
def writeLoop (ip : InodePtr) (src : Bytes) (n : Nat) : (fuel tot off : Nat) → FS Nat
  | 0, _, off => pure off
  | fuel + 1, tot, off =>
    if tot < n then do
      let addr ← bmap ip (off / BSIZE)
      let _ ← bread addr.toNat
      let m := min (n - tot) (BSIZE - off % BSIZE)
      bmodify addr.toNat fun bp => bp.splice (off % BSIZE) m fun j => src (tot + j)
      logWrite addr.toNat
      writeLoop ip src n fuel (tot + m) (off + m)
    else pure off

/-- Write data to inode. -/
def writei (ip : InodePtr) (src : Bytes) (off n : UInt32) : FS Int := do
  let s ← get
  let x ← deref ip
  if x.type = T_DEV then
    if x.major < 0 ∨ x.major.toInt ≥ NDEV then pure (-1)
    else match (s.devsw x.major).write with
      | none => pure (-1)
      | some f => pure (f src n)
  else if off + n < off then pure (-1)
  else if (off + n).toNat > MAXFILE * BSIZE then pure (-1)
  else do
    let off ← writeLoop ip src n.toNat n.toNat 0 off.toNat
    let x ← deref ip
    if n > 0 ∧ off > x.size.toNat then do
      imodify ip fun x => { x with size := UInt32.ofNat off }
      iupdate ip
      pure n.toNat
    else pure n.toNat

end Xv6
