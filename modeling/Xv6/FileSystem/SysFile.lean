-- SUMMARY: File-system system calls: link, unlink, open, mkdir, mknod, chdir and the iput of exit.
import Xv6.FileSystem.Directory
import Xv6.FileSystem.OpenFile

/-! # System calls

`sysfile.c` after its arguments have been fetched. `cwd` is the caller's current
directory. File descriptors are not part of this state: `room` says whether
`filealloc` and `fdalloc` find a free slot.
-/

namespace Xv6

def O_RDONLY : UInt32 := 0x000
def O_RDWR : UInt32 := 0x002
def O_CREATE : UInt32 := 0x200

/-- `"."`. -/
def dot : List UInt8 := [46]
/-- `".."`. -/
def dotdot : List UInt8 := [46, 46]

/-- The end of `sys_link` when it fails. -/
def linkBad (ip : InodePtr) : FS Int := do
  ilock ip
  imodify ip fun x => { x with nlink := x.nlink - 1 }
  iupdate ip
  iunlockput ip
  endOp
  pure (-1)

/-- Create the path `new` as a link to the same inode as `old`. -/
def sysLink (cwd : InodePtr) (old new : List UInt8) : FS Int := do
  beginOp
  match ← namei cwd old with
  | none => do
    endOp
    pure (-1)
  | some ip => do
    ilock ip
    let x ← deref ip
    if x.type = T_DIR then do
      iunlockput ip
      endOp
      pure (-1)
    else do
      imodify ip fun x => { x with nlink := x.nlink + 1 }
      iupdate ip
      iunlock ip
      match ← nameiparent cwd new with
      | none => linkBad ip
      | some (dp, name) => do
        ilock dp
        let x ← deref ip
        if (← dirlink dp name x.inum) < 0 then do
          iunlockput dp
          linkBad ip
        else do
          iunlockput dp
          iput ip
          endOp
          pure 0

/-- The loop of `isdirempty`. -/
def isdiremptyLoop (dp : InodePtr) : (fuel off : Nat) → FS Bool
  | 0, _ => pure true
  | fuel + 1, off => do
    let x ← deref dp
    if off < x.size.toNat then do
      let r ← readi dp (UInt32.ofNat off) (UInt32.ofNat DIRENTSIZE)
      if r.1 ≠ DIRENTSIZE then throw .isdiremptyReadi
      else if (Dirent.ofBytes r.2).inum ≠ 0 then pure false
      else isdiremptyLoop dp fuel (off + DIRENTSIZE)
    else pure true

/-- Is the directory `dp` empty except for `"."` and `".."`? -/
def isdirempty (dp : InodePtr) : FS Bool := do
  let x ← deref dp
  isdiremptyLoop dp (x.size.toNat + 1) (2 * DIRENTSIZE)

/-- The end of `sys_unlink` when it fails. -/
def unlinkBad (dp : InodePtr) : FS Int := do
  iunlockput dp
  endOp
  pure (-1)

/-- The end of `sys_unlink` when entry `off` of `dp` goes. -/
def unlinkEntry (dp ip : InodePtr) (off : Nat) : FS Int := do
  let r ← writei dp Bytes.zero (UInt32.ofNat off) (UInt32.ofNat DIRENTSIZE)
  if r ≠ DIRENTSIZE then throw .unlinkWritei
  else do
    let x ← deref ip
    if x.type = T_DIR then do
      imodify dp fun x => { x with nlink := x.nlink - 1 }
      iupdate dp
    else pure ()
    iunlockput dp
    imodify ip fun x => { x with nlink := x.nlink - 1 }
    iupdate ip
    iunlockput ip
    endOp
    pure 0

def sysUnlink (cwd : InodePtr) (path : List UInt8) : FS Int := do
  beginOp
  match ← nameiparent cwd path with
  | none => do
    endOp
    pure (-1)
  | some (dp, name) => do
    ilock dp
    -- Cannot unlink "." or "..".
    if namecmp name dot ∨ namecmp name dotdot then unlinkBad dp
    else match ← dirlookup dp name with
      | none => unlinkBad dp
      | some (ip, off) => do
        ilock ip
        let x ← deref ip
        if x.nlink < 1 then throw .unlinkNlink
        else do
          let full ← if x.type = T_DIR then do
              let e ← isdirempty ip
              pure (!e)
            else pure false
          if full then do
            iunlockput ip
            unlinkBad dp
          else unlinkEntry dp ip off

/-- Link the new inode `ip` into its parent `dp`; a directory gets its dots first. -/
def createLink (dp ip : InodePtr) (name : List UInt8) (type : Int16) : FS Unit := do
  let x ← deref ip
  if type = T_DIR then do
    imodify dp fun x => { x with nlink := x.nlink + 1 }
    iupdate dp
    let r ← dirlink ip dot x.inum
    if r < 0 then throw .createDots
    else do
      let y ← deref dp
      let r ← dirlink ip dotdot y.inum
      if r < 0 then throw .createDots
      else pure ()
  else pure ()
  let r ← dirlink dp name x.inum
  if r < 0 then throw .createDirlink
  else iunlockput dp

def create (cwd : InodePtr) (path : List UInt8) (type major minor : Int16) : FS (Option InodePtr) := do
  match ← nameiparent cwd path with
  | none => pure none
  | some (dp, name) => do
    ilock dp
    match ← dirlookup dp name with
    | some (ip, _) => do
      iunlockput dp
      ilock ip
      let x ← deref ip
      if type = T_FILE ∧ x.type = T_FILE then pure (some ip)
      else do
        iunlockput ip
        pure none
    | none => do
      let ip ← ialloc type
      ilock ip
      imodify ip fun x => { x with major := major, minor := minor, nlink := 1 }
      iupdate ip
      createLink dp ip name type
      pure (some ip)

/-- The inode that `sys_open` is about, locked. -/
def openInode (cwd : InodePtr) (path : List UInt8) (omode : UInt32) : FS (Option InodePtr) := do
  if omode &&& O_CREATE ≠ 0 then create cwd path T_FILE 0 0
  else match ← namei cwd path with
    | none => pure none
    | some ip => do
      ilock ip
      let x ← deref ip
      if x.type = T_DIR ∧ omode ≠ O_RDONLY then do
        iunlockput ip
        pure none
      else pure (some ip)

/-- The inode of the new open file. -/
def sysOpen (cwd : InodePtr) (path : List UInt8) (omode : UInt32) (room : Bool) :
    FS (Option InodePtr) := do
  beginOp
  match ← openInode cwd path omode with
  | none => do
    endOp
    pure none
  | some ip =>
    if room then do
      iunlock ip
      endOp
      pure (some ip)
    else do
      iunlockput ip
      endOp
      pure none

/-- `sys_mkdir` and `sys_mknod`. -/
def sysMake (cwd : InodePtr) (path : List UInt8) (type major minor : Int16) : FS Int := do
  beginOp
  match ← create cwd path type major minor with
  | none => do
    endOp
    pure (-1)
  | some ip => do
    iunlockput ip
    endOp
    pure 0

def sysMkdir (cwd : InodePtr) (path : List UInt8) : FS Int := sysMake cwd path T_DIR 0 0

def sysMknod (cwd : InodePtr) (path : List UInt8) (major minor : Int16) : FS Int :=
  sysMake cwd path T_DEV major minor

/-- The result is the return value and the current directory afterwards. -/
def sysChdir (cwd : InodePtr) (path : List UInt8) : FS (Int × InodePtr) := do
  beginOp
  match ← namei cwd path with
  | none => do
    endOp
    pure (-1, cwd)
  | some ip => do
    ilock ip
    let x ← deref ip
    if x.type ≠ T_DIR then do
      iunlockput ip
      endOp
      pure (-1, cwd)
    else do
      iunlock ip
      iput cwd
      endOp
      pure (0, ip)

/-- `begin_op(); iput(curproc->cwd); end_op()` in `exit`. -/
def putCwd (cwd : InodePtr) : FS Unit := do
  beginOp
  iput cwd
  endOp

end Xv6
