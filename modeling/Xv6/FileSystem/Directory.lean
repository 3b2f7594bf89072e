-- SUMMARY: Directories and path names.
import Xv6.FileSystem.Inodes

/-! # Directories

The directory and path part of `fs.c`. A C string is the list of its bytes before
the terminating NUL; a `char name[DIRSIZ]` holds the string of its bytes up to a
NUL or the end of the array. `cwd` is the caller's `myproc()->cwd`.
-/

namespace Xv6

def DIRSIZ : Nat := 14
def ROOTINO : Nat := 1
/-- `sizeof(struct dirent)`. -/
def DIRENTSIZE : Nat := 2 + DIRSIZ

/-! ## Entries -/

structure Dirent where
  inum : UInt16
  name : List UInt8
  deriving DecidableEq, Repr

namespace Dirent

def ofBytes (bs : List UInt8) : Dirent where
  inum := UInt16.ofNat ((bs.getD 0 0).toNat + 256 * (bs.getD 1 0).toNat)
  name := ((bs.drop 2).take DIRSIZ).takeWhile (· ≠ 0)

/-- The bytes of an entry whose name was set by `strncpy(de.name, name, DIRSIZ)`. -/
def bytes (de : Dirent) : Bytes := fun j =>
  if j = 0 then UInt8.ofNat de.inum.toNat
  else if j = 1 then UInt8.ofNat (de.inum.toNat / 256)
  else (de.name.take DIRSIZ).getD (j - 2) 0

end Dirent

/-- `namecmp(s, t) == 0`. -/
def namecmp (s t : List UInt8) : Bool := s.take DIRSIZ = t.take DIRSIZ

/-! ## Lookup and link -/

/-- The loop of `dirlookup`: the inode and the offset of the entry. Every round moves
    on by one entry, so as many rounds as the size has bytes are enough. -/
def dirlookupLoop (dp : InodePtr) (name : List UInt8) : (fuel off : Nat) → FS (Option (InodePtr × Nat))
  | 0, _ => pure none
  | fuel + 1, off => do
    let x ← deref dp
    if off < x.size.toNat then do
      let r ← readi dp (UInt32.ofNat off) (UInt32.ofNat DIRENTSIZE)
      if r.1 ≠ DIRENTSIZE then throw .dirlookupRead
      else
        let de := Dirent.ofBytes r.2
        if de.inum = 0 then dirlookupLoop dp name fuel (off + DIRENTSIZE)
        else if namecmp name de.name then do
          let ip ← iget de.inum.toNat
          pure (some (ip, off))
        else dirlookupLoop dp name fuel (off + DIRENTSIZE)
    else pure none

/-- Look for a directory entry in a directory. -/
def dirlookup (dp : InodePtr) (name : List UInt8) : FS (Option (InodePtr × Nat)) := do
  let x ← deref dp
  if x.type ≠ T_DIR then throw .dirlookupNotDir
  else dirlookupLoop dp name (x.size.toNat + 1) 0

/-- The loop of `dirlink` that looks for an empty entry. -/
def dirlinkLoop (dp : InodePtr) : (fuel off : Nat) → FS Nat
  | 0, off => pure off
  | fuel + 1, off => do
    let x ← deref dp
    if off < x.size.toNat then do
      let r ← readi dp (UInt32.ofNat off) (UInt32.ofNat DIRENTSIZE)
      if r.1 ≠ DIRENTSIZE then throw .dirlinkRead
      else if (Dirent.ofBytes r.2).inum = 0 then pure off
      else dirlinkLoop dp fuel (off + DIRENTSIZE)
    else pure off

/-- Write a new directory entry `(name, inum)` into the directory `dp`. -/
def dirlink (dp : InodePtr) (name : List UInt8) (inum : Nat) : FS Int := do
  match ← dirlookup dp name with
  | some (ip, _) => do
    iput ip
    pure (-1)
  | none => do
    let x ← deref dp
    let off ← dirlinkLoop dp (x.size.toNat + 1) 0
    let de : Dirent := { inum := UInt16.ofNat inum, name := name }
    let r ← writei dp de.bytes (UInt32.ofNat off) (UInt32.ofNat DIRENTSIZE)
    if r ≠ DIRENTSIZE then throw .dirlink
    else pure 0

/-! ## Paths -/

def slash : UInt8 := 47

/-- The next path element, and the path after it without leading slashes. -/
def skipelem (path : List UInt8) : Option (List UInt8 × List UInt8) :=
  let path := path.dropWhile (· = slash)
  if path = [] then none
  else some ((path.takeWhile (· ≠ slash)).take DIRSIZ,
    (path.dropWhile (· ≠ slash)).dropWhile (· = slash))

/-- The loop of `namex`. Every round takes at least one byte off the path, so one
    round more than it has bytes is enough. -/
def namexLoop (parent : Bool) : (fuel : Nat) → (ip : InodePtr) → (path : List UInt8) →
    FS (Option (InodePtr × List UInt8))
  | 0, _, _ => pure none
  | fuel + 1, ip, path =>
    match skipelem path with
    | none =>
      if parent then do
        iput ip
        pure none
      else pure (some (ip, []))
    | some (name, rest) => do
      ilock ip
      let x ← deref ip
      if x.type ≠ T_DIR then do
        iunlockput ip
        pure none
      else if parent = true ∧ rest = [] then do
        iunlock ip
        pure (some (ip, name))
      else do
        match ← dirlookup ip name with
        | none => do
          iunlockput ip
          pure none
        | some (next, _) => do
          iunlockput ip
          namexLoop parent fuel next rest

/-- Look up the inode for a path name, or for its parent; then the last element
    comes along. -/
def namex (cwd : InodePtr) (path : List UInt8) (parent : Bool) : FS (Option (InodePtr × List UInt8)) := do
  let ip ← if path.head? = some slash then iget ROOTINO else idup cwd
  namexLoop parent (path.length + 1) ip path

def namei (cwd : InodePtr) (path : List UInt8) : FS (Option InodePtr) := do
  let r ← namex cwd path false
  pure (r.map (·.1))

def nameiparent (cwd : InodePtr) (path : List UInt8) : FS (Option (InodePtr × List UInt8)) :=
  namex cwd path true

end Xv6
