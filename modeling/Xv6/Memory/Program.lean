-- SUMMARY: Loading a program: the ELF file, its segments, the stack with the arguments, and the stacks for threads.
import Xv6.Memory.Host

/-! # Loading a program

`exec.c` and what it needs of `vm.c`, with all pages. The path has been looked up: `ip` is
the file that `namei` has found, if there is one. An address that is not mapped at all makes
`uva2ka` follow a null pointer; the model stops there.
-/

namespace Xv6.Paging

open Prog

def MAXARG : Nat := 32
def ELF_MAGIC : Nat := 0x464C457F
def ELF_PROG_LOAD : Nat := 1

/-- `sizeof(struct elfhdr)`. -/
def elfhdrSize : Nat := 52

/-- `sizeof(struct proghdr)`. -/
def proghdrSize : Nat := 32

/-! ## The file -/

/-- The contents of a file. -/
structure FileData where
  size : Nat
  bytes : Bytes

namespace FileData

variable (f : FileData)

/-- How many bytes `readi` returns; `none` is -1. -/
def readi (off n : Nat) : Option Nat :=
  if off > f.size ∨ (off + n) % 2 ^ 32 < off then none
  else if (off + n) % 2 ^ 32 > f.size then some (f.size - off)
  else some n

/-- The `uint` at offset `o`. -/
def uint (o : Nat) : Nat := (Bytes.word (fun j => f.bytes (o + j)) 0).toNat

/-- The `ushort` at offset `o`. -/
def ushort (o : Nat) : Nat := (f.bytes.half o).toNat

def magic : Nat := f.uint 0
def entry : Nat := f.uint 24
def phoff : Nat := f.uint 28
def phnum : Nat := f.ushort 44

end FileData

/-- `struct proghdr`, as far as `exec` reads it. -/
structure Proghdr where
  type : Nat
  off : Nat
  vaddr : Nat
  filesz : Nat
  memsz : Nat

/-- The program header at offset `o`. -/
def FileData.proghdr (f : FileData) (o : Nat) : Proghdr where
  type := f.uint o
  off := f.uint (o + 4)
  vaddr := f.uint (o + 8)
  filesz := f.uint (o + 16)
  memsz := f.uint (o + 20)

/-- `ph.vaddr + ph.memsz`. -/
def Proghdr.last (ph : Proghdr) : Nat := (ph.vaddr + ph.memsz) % 2 ^ 32

/-! ## Segments -/

/-- Copy bytes into a frame, from offset `o` on. -/
def write (g : Frame) (o n : Nat) (src : Bytes) : MProg Unit :=
  modify fun m => { m with bytes := Function.update m.bytes g ((m.bytes g).splice o n src) }

/-- How many of `sz` bytes are read at once, at byte `i`: at most a page. -/
def chunk (sz i : Nat) : Nat := if sz - i < PGSIZE then sz - i else PGSIZE

/-- The loop of `loaduvm`, at byte `i`, with `n` pages to come. -/
def loadLoop (d : Dir) (f : FileData) (addr offset sz : Nat) : Nat → Nat → MProg Bool
  | 0, _ => pure true
  | n + 1, i =>
    match d.pde ((addr + i) / PGSIZE / NPTENTRIES) with
    | none => throw .noAddress
    | some t => do
      let pa := (t.pte ((addr + i) / PGSIZE % NPTENTRIES)).frame
      match f.readi ((offset + i) % 2 ^ 32) (chunk sz i) with
      | none => pure false
      | some k => do
        write pa 0 k fun j => f.bytes ((offset + i) % 2 ^ 32 + j)
        if k ≠ chunk sz i then pure false else loadLoop d f addr offset sz n (i + PGSIZE)

/-- Load a program segment. The pages from `addr` to `addr + sz` must already be mapped. -/
def loaduvm (d : Dir) (addr : Nat) (f : FileData) (offset sz : Nat) : MProg Bool :=
  loadLoop d f addr offset sz (pageCount sz) 0

/-- Load one segment into an image of `sz` bytes: its new size, or `none` for `goto bad`. -/
def loadSegment (L : Layout) (f : FileData) (ph : Proghdr) (sz : Nat) (d : Dir) : MProg (Option Nat × Dir) :=
  if ph.memsz < ph.filesz then pure (none, d)
  else if ph.last < ph.vaddr then pure (none, d)
  else do
    let (sz, d) ← allocuvm L d sz ph.last
    if sz = 0 then pure (none, d)
    else if ph.vaddr % PGSIZE ≠ 0 then pure (none, d)
    else do
      if ← loaduvm d ph.vaddr f ph.off ph.filesz then pure (some sz, d) else pure (none, d)

/-- The loop over the program headers. -/
def loadSegments (L : Layout) (f : FileData) : Nat → Nat → Nat → Dir → MProg (Option Nat × Dir)
  | 0, _, sz, d => pure (some sz, d)
  | n + 1, off, sz, d =>
    if f.readi off proghdrSize ≠ some proghdrSize then pure (none, d)
    else if (f.proghdr off).type ≠ ELF_PROG_LOAD then loadSegments L f n ((off + proghdrSize) % 2 ^ 32) sz d
    else do
      let (r, d) ← loadSegment L f (f.proghdr off) sz d
      match r with
      | none => pure (none, d)
      | some sz => loadSegments L f n ((off + proghdrSize) % 2 ^ 32) sz d

/-! ## The stack -/

/-- Clear `PTE_U` on page `p`. -/
def clearpteu (d : Dir) (p : Nat) : MProg Dir :=
  match d.pde (p / NPTENTRIES) with
  | none => throw .clearpteu
  | some t => pure (d.setPte p ⟨(t.pte (p % NPTENTRIES)).frame, (t.pte (p % NPTENTRIES)).flags &&& ~~~ PTE_U⟩)

/-- Map user page `p` to its frame. -/
def uva2ka (d : Dir) (p : Nat) : MProg (Option Frame) :=
  match d.pde (p / NPTENTRIES) with
  | none => throw .nullPte
  | some t =>
    let e := t.pte (p % NPTENTRIES)
    if e.flags &&& PTE_P = 0 then pure none
    else if e.flags &&& PTE_U = 0 then pure none
    else pure (some e.frame)

/-- Copy `data` to user address `va`. -/
def copyout (d : Dir) (va : Nat) (data : List UInt8) : MProg Bool :=
  if h : data = [] then pure true
  else do
    match ← uva2ka d (va / PGSIZE) with
    | none => pure false
    | some pa => do
      let n := min (PGSIZE - va % PGSIZE) data.length
      write pa (va % PGSIZE) n fun j => data.getD j 0
      copyout d ((va / PGSIZE + 1) * PGSIZE % 2 ^ 32) (data.drop n)
termination_by data.length
decreasing_by
  have hpos : 0 < data.length := List.length_pos_iff.mpr h
  have hroom : va % PGSIZE < PGSIZE := Nat.mod_lt _ (by decide)
  rw [List.length_drop]
  omega

/-- An argument string, without the zero at its end. It lies in user memory. -/
structure Arg where
  bytes : List UInt8
  short : bytes.length < KERNBASE

/-- `sp - n`. -/
def below (sp n : Nat) : Nat := (sp + (2 ^ 32 - n)) % 2 ^ 32

/-- Push argument strings: the stack pointer, and where the strings are. -/
def pushArgs (d : Dir) : List Arg → Nat → Nat → List Nat → MProg (Option (Nat × List Nat))
  | [], _, sp, ustack => pure (some (sp, ustack))
  | a :: argv, argc, sp, ustack =>
    if argc ≥ MAXARG then pure none
    else do
      let sp := below sp (a.bytes.length + 1) / 4 * 4
      if ← copyout d sp (a.bytes ++ [0]) then pushArgs d argv (argc + 1) sp (ustack ++ [sp]) else pure none

/-- The bytes of an array of `uint`. -/
def wordBytes (ws : List Nat) : List UInt8 := ws.flatMap fun w => (List.range 4).map (Bytes.digit w)

/-- Push the arguments of `main` below `sz`. Returns the stack pointer. -/
def pushStack (d : Dir) (sz : Nat) (argv : List Arg) : MProg (Option Nat) := do
  match ← pushArgs d argv 0 sz [] with
  | none => pure none
  | some (sp, strings) => do
    let argc := strings.length
    -- A fake return address, `argc`, and the `argv` pointer.
    let ustack := 0xffffffff :: argc :: below sp ((argc + 1) * 4) :: strings ++ [0]
    let sp := below sp ((3 + argc + 1) * 4)
    if ← copyout d sp (wordBytes ustack) then pure (some sp) else pure none

/-! ## exec -/

/-- A program that has been loaded. -/
structure Program where
  dir : Dir
  usz : Nat
  esp : Nat
  entry : Nat

/-- `goto bad` with a page directory. -/
def giveUp (L : Layout) (d : Dir) : MProg (Option Program) := do
  freevm L d
  pure none

/-- Allocate two pages at the next page boundary, make the first inaccessible, and use the
    second as the user stack. -/
def addStack (L : Layout) (f : FileData) (argv : List Arg) (sz : Nat) (d : Dir) : MProg (Option Program) := do
  let (sz, d) ← allocuvm L d (PGROUNDUP sz) (PGROUNDUP sz + 2 * PGSIZE)
  if sz = 0 then giveUp L d
  else do
    let d ← clearpteu d ((sz - 2 * PGSIZE) / PGSIZE)
    match ← pushStack d sz argv with
    | none => giveUp L d
    | some sp => pure (some ⟨d, sz, sp, f.entry⟩)

/-- `exec` until it commits to the user image. -/
def loadProgram (L : Layout) (ip : Option FileData) (argv : List Arg) : MProg (Option Program) := do
  match ip with
  | none => pure none
  | some f =>
    if f.readi 0 elfhdrSize ≠ some elfhdrSize then pure none
    else if f.magic ≠ ELF_MAGIC then pure none
    else do
      match ← setupkvm L with
      | none => pure none
      | some d => do
        let (sz, d) ← loadSegments L f f.phnum f.phoff 0 d
        match sz with
        | none => giveUp L d
        | some sz => addStack L f argv sz d

/-- Allocate stack space for `n` more threads: the new size or 0, and for how many
    there is space. -/
def stackLoop (L : Layout) : Nat → Nat → Nat → Dir → MProg (Nat × Nat × Dir)
  | 0, sz, k, d => pure (sz, k, d)
  | n + 1, sz, k, d => do
    let (sz, d) ← allocuvm L d sz (sz + 2 * PGSIZE)
    if sz = 0 then pure (0, k, d) else stackLoop L n sz (k + 1) d

end Xv6.Paging

namespace Xv6

open Paging (Dir Layout Mem FileData Arg)

/-- What a process runs, beside what is in its slot: its directory, `name`, and of the
    trap frame `eip` and `esp`. -/
structure Image where
  dir : Dir
  name : List UInt8
  eip : Nat
  esp : Nat

/-- The last element of a path, as much of it as goes into `name`. -/
def progName (path : List UInt8) : List UInt8 := (path.reverse.takeWhile (· ≠ '/'.toUInt8)).reverse.take 15

/-- Replace the image of `c` by a program. -/
def Host.exec (L : Layout) (c : Slot) (path : List UInt8) (ip : Option FileData) (argv : List Arg) (im : Image) :
    HostProg (Int × Image) := do
  match ← onMem (Paging.loadProgram L ip argv) with
  | none => do
    let r ← onKernel (Xv6.exec c .bad)
    pure (r, im)
  | some g => do
    -- Save program name, and commit to the user image.
    let im := { im with name := progName path }
    let (sz, n, d) ← onMem (Paging.stackLoop L NPROC g.usz 0 g.dir)
    if sz = 0 then do
      let r ← onKernel (Xv6.exec c (.short d.frame g.usz n))
      pure (r, { im with dir := d })
    else do
      let r ← onKernel (Xv6.exec c (.ok d.frame g.usz))
      onMem (Paging.freevm L im.dir)
      pure (r, { im with dir := d, eip := g.entry, esp := g.esp })

end Xv6
