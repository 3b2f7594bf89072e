-- SUMMARY: File descriptors and current directories: who takes and drops references.
import Xv6.Process.Table

/-! # Descriptors

`file.c` and the parts of `sysfile.c` that take and drop references to open files
and inodes. What a path name leads to is an argument: the entry of the inode cache
to which `namei` or `create` returns a reference, or nothing. Calls that take a
reference and drop it again are left out.
-/

namespace Xv6

open Prog

/-- Code that works on descriptors. -/
abbrev FProg := Prog Files Halt

def setFile (f : Fin NFILE) (x : FileEntry) : FProg Unit :=
  modify fun s => { s with ftable := Function.update s.ftable f x }

def setOfile (p : Slot) (fd : Fin NOFILE) (r : Option (Fin NFILE)) : FProg Unit :=
  modify fun s => { s with ofile := Function.update s.ofile p (Function.update (s.ofile p) fd r) }

def setCwd (p : Slot) (r : Option InodePtr) : FProg Unit :=
  modify fun s => { s with cwd := Function.update s.cwd p r }

def addIref (ip : InodePtr) (n : Int) : FProg Unit :=
  modify fun s => { s with iref := Function.update s.iref ip (s.iref ip + n) }

def fileFault (e : FileFault) : FProg Unit := modify fun s => { s with faults := e :: s.faults }

/-- `idup`, and the reference that `iget` returns. -/
def takeInode : Option InodePtr → FProg Unit
  | none => fileFault .idupNull
  | some ip => addIref ip 1

/-- `iput`. -/
def putInode : Option InodePtr → FProg Unit
  | none => fileFault .iputNull
  | some ip => do
    let s ← get
    if s.iref ip < 1 then fileFault (.iputUnreferenced ip) else pure ()
    addIref ip (-1)

/-- Allocate a file structure. -/
def filealloc : FProg (Option (Fin NFILE)) := do
  let s ← get
  match (List.finRange NFILE).find? fun f => decide ((s.ftable f).ref = 0) with
  | none => pure none
  | some f => do
    setFile f { s.ftable f with ref := 1 }
    pure (some f)

/-- Increment ref count for file `f`. -/
def filedup (f : Fin NFILE) : FProg Unit := do
  let x := (← get).ftable f
  if x.ref < 1 then throw .filedup
  else setFile f { x with ref := x.ref + 1 }

/-- Close file `f`: decrement ref count, close when reaches 0. -/
def closeFile (f : Fin NFILE) : FProg Unit := do
  let x := (← get).ftable f
  if x.ref < 1 then throw .fileclose
  else if x.ref - 1 > 0 then setFile f { x with ref := x.ref - 1 }
  else do
    setFile f { inode := none, ref := 0 }
    match x.inode with
    | none => pure ()
    | some ip => putInode (some ip)

/-- Allocate a file descriptor for the given file. -/
def fdalloc (p : Slot) (f : Fin NFILE) : FProg (Option (Fin NOFILE)) := do
  let s ← get
  match (List.finRange NOFILE).find? fun fd => decide (s.ofile p fd = none) with
  | none => pure none
  | some fd => do
    setOfile p fd (some f)
    pure (some fd)

/-! ## System calls -/

def sysDup (p : Slot) (fd : Fin NOFILE) : FProg Int := do
  match (← get).ofile p fd with
  | none => pure (-1)
  | some f => do
    match ← fdalloc p f with
    | none => pure (-1)
    | some fd' => do
      filedup f
      pure fd'

def sysClose (p : Slot) (fd : Fin NOFILE) : FProg Int := do
  match (← get).ofile p fd with
  | none => pure (-1)
  | some f => do
    setOfile p fd none
    closeFile f
    pure 0

/-- `sys_open` after the path has led to `ip`. -/
def openFound (p : Slot) (ip : InodePtr) : FProg Int := do
  match ← filealloc with
  | none => do
    putInode (some ip)
    pure (-1)
  | some f => do
    match ← fdalloc p f with
    | none => do
      closeFile f
      putInode (some ip)
      pure (-1)
    | some fd => do
      setFile f { (← get).ftable f with inode := some ip }
      pure fd

def sysOpenFd (p : Slot) : Option InodePtr → FProg Int
  | none => pure (-1)
  | some ip => do
    takeInode (some ip)
    openFound p ip

/-- `pipealloc`; `page` says whether `kalloc` has a page for the pipe. -/
def pipealloc (page : Bool) : FProg (Option (Fin NFILE × Fin NFILE)) := do
  match ← filealloc with
  | none => pure none
  | some f0 => do
    match ← filealloc with
    | none => do
      closeFile f0
      pure none
    | some f1 =>
      if page then pure (some (f0, f1))
      else do
        closeFile f0
        closeFile f1
        pure none

def sysPipe (p : Slot) (page : Bool) : FProg Int := do
  match ← pipealloc page with
  | none => pure (-1)
  | some (rf, wf) => do
    match ← fdalloc p rf with
    | none => do
      closeFile rf
      closeFile wf
      pure (-1)
    | some fd0 => do
      match ← fdalloc p wf with
      | none => do
        setOfile p fd0 none
        closeFile rf
        closeFile wf
        pure (-1)
      | some _ => pure 0

/-- `sys_chdir` when the path leads to the directory `ip`. -/
def sysChdirTo (p : Slot) : Option InodePtr → FProg Int
  | none => pure (-1)
  | some ip => do
    takeInode (some ip)
    putInode ((← get).cwd p)
    setCwd p (some ip)
    pure 0

/-! ## Processes -/

/-- Close all open files of `p` and drop its current directory. -/
def closeAll (p : Slot) : FProg Unit := do
  (List.finRange NOFILE).forM fun fd => do
    match (← get).ofile p fd with
    | none => pure ()
    | some f => do
      closeFile f
      setOfile p fd none
  putInode ((← get).cwd p)
  setCwd p none

/-- Give the new process `np` the open files and the current directory of `c`. -/
def dupAll (c np : Slot) : FProg Unit := do
  (List.finRange NOFILE).forM fun fd => do
    match (← get).ofile c fd with
    | none => pure ()
    | some f => do
      filedup f
      setOfile np fd (some f)
  let d := (← get).cwd c
  takeInode d
  setCwd np d

/-- These stop only where a reference count is not positive. -/
theorem wp_closeFile_any {s : Files} {E : Halt → Prop} {Q : Unit → Files → Prop} {f : Fin NFILE}
    (hQ : ∀ t, Q () t) (hE : E .fileclose) : wp (closeFile f) Q E s := by
  simp only [closeFile, wp_bind, wp_get]
  split
  · exact hE
  · split
    · exact hQ _
    · simp only [wp_bind, setFile, wp_modify]
      split
      · exact hQ _
      · simp only [putInode, wp_bind, wp_get]
        split <;> exact hQ _

theorem wp_closeAll_any {s : Files} {E : Halt → Prop} {Q : Unit → Files → Prop} {p : Slot}
    (hQ : ∀ t, Q () t) (hE : E .fileclose) : wp (closeAll p) Q E s := by
  simp only [closeAll, wp_bind]
  refine (wp_forM_inv (fun _ _ => True) (fun fd _ t _ => ?_) _ s trivial).post fun _ t _ => ?_
  · simp only [wp_bind, wp_get]
    split
    · trivial
    · simp only [wp_bind]
      exact wp_closeFile_any (fun _ => trivial) hE
  · simp only [wp_get, setCwd, wp_modify]
    cases t.cwd p with
    | none => exact hQ _
    | some ip =>
      simp only [putInode, wp_bind, wp_get]
      split <;> exact hQ _

/-- An open file of `p` has no reference. -/
def Files.Unreferenced (s : Files) (p : Slot) : Prop := ∃ fd f, s.ofile p fd = some f ∧ (s.ftable f).ref < 1

/-- Files are shared with another process just if all of them are referenced. -/
theorem wp_dupAll {s : Files} {E : Halt → Prop} {Q : Unit → Files → Prop} {c np : Slot} (hne : c ≠ np)
    (hQ : ¬ s.Unreferenced c → ∀ t, Q () t) (hE : s.Unreferenced c → E .filedup) : wp (dupAll c np) Q E s := by
  simp only [dupAll, wp_bind]
  -- The files of `c` stay what they are, and only a file with references gets one more.
  refine (wp_forM_inv (fun fds t => t.ofile c = s.ofile c ∧ (∀ f, (t.ftable f).ref < 1 ↔ (s.ftable f).ref < 1) ∧
      ∀ fd f, fd ∉ fds → s.ofile c fd = some f → ¬ (s.ftable f).ref < 1)
      (fun fd fds t ht => ?_) _ s ⟨rfl, fun _ => Iff.rfl, fun fd f h => absurd (List.mem_finRange fd) h⟩).post
      fun _ t ht => ?_
  · obtain ⟨hofile, hrefs, hdone⟩ := ht
    have hnext : (∀ f, s.ofile c fd = some f → ¬ (s.ftable f).ref < 1) → ∀ fd' f, fd' ∉ fds → s.ofile c fd' = some f →
        ¬ (s.ftable f).ref < 1 := by
      intro hfd fd' f hmem hf
      by_cases heq : fd' = fd
      · exact hfd f (heq ▸ hf)
      · exact hdone fd' f (List.not_mem_cons_of_ne_of_not_mem heq hmem) hf
    simp only [wp_bind, wp_get]
    rw [hofile]
    cases hf : s.ofile c fd with
    | none =>
      refine ⟨hofile, hrefs, hnext fun f h => ?_⟩
      rw [hf] at h
      cases h
    | some f =>
      simp only [wp_bind, filedup, wp_get]
      split
      · next href => exact hE ⟨fd, f, hf, (hrefs f).mp href⟩
      · next href =>
        refine ⟨?_, fun g => ?_, hnext fun g hg => ?_⟩
        · exact (Function.update_of_ne hne _ _).trans hofile
        · change (Function.update t.ftable f _ g).ref < 1 ↔ _
          by_cases hg : g = f
          · subst hg
            rw [Function.update_self, ← hrefs g]
            dsimp only
            omega
          · rw [Function.update_of_ne hg, hrefs g]
        · rw [hf] at hg
          rw [← Option.some.inj hg, ← hrefs f]
          exact href
  · simp only [wp_get, setCwd, wp_modify]
    have hrefs : ¬ s.Unreferenced c := by
      rintro ⟨fd, f, hf, href⟩
      exact ht.2.2 fd f List.not_mem_nil hf href
    have hQ := hQ hrefs
    cases t.cwd c with
    | none => exact hQ _
    | some ip => exact hQ _

end Xv6
