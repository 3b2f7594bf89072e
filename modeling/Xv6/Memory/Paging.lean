-- SUMMARY: Page directories with the frames they are made of: setting up, mapping, growing, copying and freeing them.
import Xv6.Base.Bytes
import Xv6.Process.Calls

/-! # Paging

`vm.c` and `kalloc.c` with every page that they allocate. A page directory and its page
tables have a frame each, and the part above `KERNBASE` is mapped as well. So it can be
told where each frame is: on the free list, or in which place of which directory.

Addresses count in pages where the source only deals with whole pages. `data` and `end`
are set by the linker.
-/

namespace Xv6

/-- A page of physical memory. -/
abbrev Frame := Nat

/-- The pages of a size. -/
def pageCount (n : Nat) : Nat := (n + PGSIZE - 1) / PGSIZE

theorem PGROUNDUP_eq (n : Nat) : PGROUNDUP n = pageCount n * PGSIZE := rfl

theorem lt_pageCount {n j : Nat} : j < pageCount n ↔ j * PGSIZE < n := by
  unfold pageCount PGSIZE
  omega

theorem pageCount_mono {a b : Nat} (h : a ≤ b) : pageCount a ≤ pageCount b := by
  unfold pageCount
  exact Nat.div_le_div_right (by omega)

namespace Paging

open Prog

@[irreducible] def NPDENTRIES : Nat := 1024
def NPTENTRIES : Nat := 1024
def EXTMEM : Nat := 0x100000
def PHYSTOP : Nat := 0xE000000
def DEVSPACE : Nat := 0xFE000000

abbrev Flags := BitVec 12

def PTE_P : Flags := 0x001
def PTE_W : Flags := 0x002
def PTE_U : Flags := 0x004

/-- `pte_t`: `PTE_ADDR`, in pages, and `PTE_FLAGS`. -/
structure Pte where
  frame : Frame
  flags : Flags
  deriving DecidableEq, Repr

namespace Pte

def zero : Pte := ⟨0, 0⟩

def Present (e : Pte) : Prop := e.flags &&& PTE_P ≠ 0

instance (e : Pte) : Decidable e.Present := inferInstanceAs (Decidable (_ ≠ _))

end Pte

/-- A page table in its frame. -/
structure Table where
  frame : Frame
  pte : Nat → Pte

/-- A page directory in its frame. Entries without `PTE_P` are `none`. -/
structure Dir where
  frame : Frame
  pde : Nat → Option Table

namespace Dir

variable (d : Dir)

/-- The entry for page `p`; zero if there is no page table for it. -/
def pte (p : Nat) : Pte :=
  match d.pde (p / NPTENTRIES) with
  | none => .zero
  | some t => t.pte (p % NPTENTRIES)

/-- The frame of page table `i`. -/
def tableAt (i : Nat) : Option Frame := (d.pde i).map Table.frame

/-- `*pte = e`, if there is a page table for page `p`. -/
def setPte (p : Nat) (e : Pte) : Dir :=
  match d.pde (p / NPTENTRIES) with
  | none => d
  | some t =>
    { d with
      pde := Function.update d.pde (p / NPTENTRIES)
        (some { t with pte := Function.update t.pte (p % NPTENTRIES) e }) }

/-- A page table without pages. -/
def addTable (p : Nat) (f : Frame) : Dir :=
  { d with pde := Function.update d.pde (p / NPTENTRIES) (some ⟨f, fun _ => .zero⟩) }

end Dir

/-- What the linker fixes, in pages from physical address 0 on. -/
structure Layout where
  /-- `V2P(data)`. -/
  data : Nat
  /-- `V2P(end)`. -/
  kend : Nat
  data_gt : EXTMEM / PGSIZE < data
  data_lt : data < PHYSTOP / PGSIZE
  kend_pos : 0 < kend

/-- The frames that `kfree` accepts. -/
def Layout.Valid (L : Layout) (f : Frame) : Prop := L.kend ≤ f ∧ f < PHYSTOP / PGSIZE

instance (L : Layout) (f : Frame) : Decidable (L.Valid f) := inferInstanceAs (Decidable (_ ∧ _))

/-- The free list, and the contents of pages. -/
structure Mem where
  free : List Frame
  bytes : Frame → Bytes

inductive Panic where
  | kfree
  | remap
  /-- `copyuvm: pte should exist`. -/
  | noPte
  /-- `copyuvm: page not present`. -/
  | noPage
  /-- `loaduvm: address should exist`. -/
  | noAddress
  | clearpteu
  /-- `uva2ka` follows a null pointer. -/
  | nullPte
  deriving DecidableEq, Repr

abbrev MProg := Prog Mem Panic

/-! ## Frames -/

def kalloc : MProg (Option Frame) := do
  match (← get).free with
  | [] => pure none
  | f :: rest => do
    modify fun m => { m with free := rest }
    pure (some f)

/-- The frame is filled with junk and put on the free list. -/
def Mem.give (m : Mem) (f : Frame) : Mem :=
  { free := f :: m.free, bytes := Function.update m.bytes f fun _ => 1 }

def kfree (L : Layout) (f : Frame) : MProg Unit :=
  if L.Valid f then modify fun m => m.give f else throw .kfree

/-- `memset` or `memmove` of a whole page. -/
def fill (f : Frame) (c : Bytes) : MProg Unit := modify fun m => { m with bytes := Function.update m.bytes f c }

/-! ## Mapping -/

/-- The directory in which there is an entry for page `p`; with `alloc` a page table is
    made for it, if there is a frame. -/
def walkpgdir (d : Dir) (p : Nat) (alloc : Bool) : MProg (Option Dir) :=
  match d.pde (p / NPTENTRIES) with
  | some _ => pure (some d)
  | none =>
    if alloc then do
      match ← kalloc with
      | none => pure none
      | some f => pure (some (d.addTable p f))
    else pure none

/-- One round of `mappages`: page `p` gets frame `f`. -/
def mapPage (d : Dir) (p : Nat) (f : Frame) (perm : Flags) : MProg (Option Dir) := do
  match ← walkpgdir d p true with
  | none => pure none
  | some d =>
    if (d.pte p).Present then throw .remap
    else pure (some (d.setPte p ⟨f, perm ||| PTE_P⟩))

/-- The loop of `mappages`, with `n` pages to come. -/
def mapLoop (perm : Flags) : Nat → Nat → Frame → Dir → MProg (Bool × Dir)
  | 0, _, _, d => pure (true, d)
  | n + 1, p, f, d => do
    match ← mapPage d p f perm with
    | none => pure (false, d)
    | some d => mapLoop perm n (p + 1) (f + 1) d

/-- Map the pages from `va` to `va + size - 1` to the frames from `pa` on. -/
def mappages (d : Dir) (va size pa : Nat) (perm : Flags) : MProg (Bool × Dir) :=
  let a := va / PGSIZE
  let last := (va + size - 1) / PGSIZE
  mapLoop perm (last - a + 1) a (pa / PGSIZE) d

/-! ## Shrinking and freeing -/

/-- Give back page `p`, which has an entry. -/
def freePage (L : Layout) (d : Dir) (p : Nat) : MProg Dir :=
  if (d.pte p).Present then
    if (d.pte p).frame = 0 then throw .kfree
    else do
      kfree L (d.pte p).frame
      pure (d.setPte p .zero)
  else pure d

/-- The loop of `deallocuvm`, from page `p` up to page `n`. -/
def deallocLoop (L : Layout) (n p : Nat) (d : Dir) : MProg Dir :=
  if p < n then
    match d.pde (p / NPTENTRIES) with
    -- There is no page table: go on behind it.
    | none => deallocLoop L n ((p / NPTENTRIES + 1) * NPTENTRIES) d
    | some _ => do
      let d ← freePage L d p
      deallocLoop L n (p + 1) d
  else pure d
termination_by n - p
decreasing_by
  · unfold NPTENTRIES
    omega
  · omega

/-- Deallocate user pages to bring the process size from `oldsz` to `newsz`. -/
def deallocuvm (L : Layout) (d : Dir) (oldsz newsz : Nat) : MProg (Nat × Dir) :=
  if newsz ≥ oldsz then pure (oldsz, d)
  else do
    let d ← deallocLoop L (pageCount oldsz) (pageCount newsz) d
    pure (newsz, d)

/-- Give back page table `i`, if there is one. -/
def freeTable (L : Layout) (d : Dir) (i : Nat) : MProg Unit :=
  match d.pde i with
  | none => pure ()
  | some t => kfree L t.frame

/-- Free a page directory and all the pages in its user part. -/
def freevm (L : Layout) (d : Dir) : MProg Unit := do
  let (_, d) ← deallocuvm L d KERNBASE 0
  (List.range NPDENTRIES).forM (freeTable L d)
  kfree L d.frame

/-! ## Setting up -/

structure Kmap where
  virt : Nat
  physStart : Nat
  physEnd : Nat
  perm : Flags

/-- `k->phys_end - k->phys_start`. -/
def Kmap.size (k : Kmap) : Nat := (k.physEnd + 2 ^ 32 - k.physStart) % 2 ^ 32

/-- The mappings of the kernel, which are there in every page directory. -/
def Layout.kmap (L : Layout) : List Kmap :=
  [ -- I/O space
    ⟨KERNBASE, 0, EXTMEM, PTE_W⟩,
    -- kernel text and read-only data
    ⟨KERNBASE + EXTMEM, EXTMEM, L.data * PGSIZE, 0⟩,
    -- kernel data and memory
    ⟨KERNBASE + L.data * PGSIZE, L.data * PGSIZE, PHYSTOP, PTE_W⟩,
    -- more devices
    ⟨DEVSPACE, DEVSPACE, 0, PTE_W⟩]

/-- The loop of `setupkvm`. -/
def kmapLoop (L : Layout) : List Kmap → Dir → MProg (Option Dir)
  | [], d => pure (some d)
  | k :: ks, d => do
    let (mapped, d) ← mappages d k.virt k.size k.physStart k.perm
    if mapped then kmapLoop L ks d
    else do
      freevm L d
      pure none

/-- Set up the kernel part of a page directory. -/
def setupkvm (L : Layout) : MProg (Option Dir) := do
  match ← kalloc with
  | none => pure none
  | some f => kmapLoop L L.kmap ⟨f, fun _ => none⟩

/-! ## Growing and copying -/

/-- The loop of `allocuvm`, with `n` pages from page `p` on to come. -/
def allocLoop (L : Layout) (oldsz newsz : Nat) : Nat → Nat → Dir → MProg (Nat × Dir)
  | 0, _, d => pure (newsz, d)
  | n + 1, p, d => do
    match ← kalloc with
    | none => do
      let (_, d) ← deallocuvm L d newsz oldsz
      pure (0, d)
    | some mem => do
      fill mem Bytes.zero
      let (mapped, d) ← mappages d (p * PGSIZE) PGSIZE (mem * PGSIZE) (PTE_W ||| PTE_U)
      if mapped then allocLoop L oldsz newsz n (p + 1) d
      else do
        let (_, d) ← deallocuvm L d newsz oldsz
        kfree L mem
        pure (0, d)

/-- Allocate pages to grow a process from `oldsz` to `newsz`. Returns the new size, or 0. -/
@[irreducible] def allocuvm (L : Layout) (d : Dir) (oldsz newsz : Nat) : MProg (Nat × Dir) :=
  if newsz ≥ KERNBASE then pure (0, d)
  else if newsz < oldsz then pure (oldsz, d)
  else allocLoop L oldsz newsz (pageCount newsz - pageCount oldsz) (pageCount oldsz) d

/-- The loop of `copyuvm`, with `n` pages from page `p` on to come. -/
def copyLoop (L : Layout) (D : Dir) : Nat → Nat → Dir → MProg (Option Dir)
  | 0, _, d => pure (some d)
  | n + 1, p, d => do
    match D.pde (p / NPTENTRIES) with
    | none => throw .noPte
    | some t =>
      let e := t.pte (p % NPTENTRIES)
      if ¬ e.Present then throw .noPage
      else do
        match ← kalloc with
        | none => do
          freevm L d
          pure none
        | some mem => do
          fill mem ((← get).bytes e.frame)
          let (mapped, d) ← mappages d (p * PGSIZE) PGSIZE (mem * PGSIZE) e.flags
          if mapped then copyLoop L D n (p + 1) d
          else do
            freevm L d
            pure none

/-- Given a parent process's page directory, create a copy of it for a child. -/
def copyuvm (L : Layout) (D : Dir) (sz : Nat) : MProg (Option Dir) := do
  match ← setupkvm L with
  | none => pure none
  | some d => copyLoop L D (pageCount sz) 0 d

end Paging

end Xv6
