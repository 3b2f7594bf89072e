-- SUMMARY: The calls that have to do with memory, on page directories and on the kernel.
import Xv6.Memory.Exec
import Xv6.Memory.Growproc

/-! # Calls on memory

The page directories are kept beside the kernel. A call first does its work on them, with
the free frames that there are, and what comes out of it decides how the call goes on.
-/

namespace Xv6

open Prog
open Paging (Dir Layout Mem Pte FileData Arg Commits StacksFit Accounts Grown userPages)

/-! ## Directories of a size -/

namespace Paging

/-- What is mapped at page `q`. -/
def Dir.page (d : Dir) (q : Nat) : Option Pte := if (d.pte q).Present then some (d.pte q) else none

/-- Of the pages of the user exactly those below `n` are present, and all frames of the
    directory come from the allocator. -/
structure Dir.Maps (L : Layout) (d : Dir) (n : Nat) : Prop where
  valid : ∀ a, ∀ f ∈ d.held a, L.Valid f
  present : ∀ q < userPages, (d.pte q).Present ↔ q * PGSIZE < n

section Maps

variable {L : Layout} {d d' : Dir} {m m' : Mem} {n : Nat} {total : Multiset Frame}

theorem Dir.page_congr {q : Nat} (h : d'.pte q = d.pte q) : d'.page q = d.page q := by
  unfold Dir.page
  rw [h]

theorem Dir.page_eq_none {q : Nat} : d.page q = none ↔ ¬ (d.pte q).Present := by
  unfold Dir.page
  split <;> simp_all

theorem Dir.Maps.exists_accounts (h : d.Maps L n) (hm : m.Sound L) :
    ∃ total : Multiset Frame, (∀ f ∈ total, L.Valid f) ∧ Accounts total 0 m d := by
  refine ⟨0 + (m.free : Multiset Frame) + ∑ a, d.held a, fun f hf => ?_, rfl⟩
  rw [zero_add, Multiset.mem_add, Multiset.mem_sum] at hf
  rcases hf with hf | ⟨a, -, hf⟩
  · exact hm.valid f (Multiset.mem_coe.mp hf)
  · exact h.valid a f hf

theorem Accounts.maps (h : Accounts total 0 m d) (hvalid : ∀ f ∈ total, L.Valid f)
    (hpresent : ∀ q < userPages, (d.pte q).Present ↔ q * PGSIZE < n) : d.Maps L n :=
  ⟨fun _ f hf => hvalid f (Balanced.mem_of_held h hf), hpresent⟩

theorem Grown.maps {F : List Frame} (h : Grown L F (pageCount n) d m) (hvalid : ∀ f ∈ F, L.Valid f) : d.Maps L n :=
  h.accounts.maps (fun f hf => hvalid f (Multiset.mem_coe.mp hf)) fun q hq => (h.present q hq).trans lt_pageCount

end Maps

/-- `growproc` up to the new size. -/
def resizeDir (L : Layout) (sz : Nat) (n : Int) (d : Dir) : MProg (Nat × Dir) :=
  if n > 0 then allocuvm L d sz (grownSize sz n)
  else if n < 0 then deallocuvm L d sz (grownSize sz n)
  else pure (sz, d)

/-- What becomes of the size and of the page directory. -/
inductive Resized (L : Layout) (sz : Nat) (n : Int) (d : Dir) : Nat → Dir → Prop where
  | done {d'} (new : Nat) (hnew : (new : Int) = sz + n) (hpos : 0 < new) (hlt : new < KERNBASE)
      (hmaps : d'.Maps L new) : Resized L sz n d new d'
  | short {d'} (hn : 0 < n) (hmaps : d'.Maps L sz) (hsame : ∀ q < userPages, d'.page q = d.page q) :
      Resized L sz n d 0 d'
  | emptied {d'} (hn : sz + n = 0) (hmaps : d'.Maps L 0) : Resized L sz n d 0 d'
  | wrapped {d'} (hn : sz + n < 0) : Resized L sz n d sz d'

section Resize

variable {L : Layout} {sz : Nat} {n : Int} {d : Dir} {m : Mem} {E : Panic → Prop}

/-- More memory is asked for. -/
theorem wp_resizeDir_grow (hm : m.Sound L) (hd : d.Maps L sz) {new : Nat} (hnew : (new : Int) = sz + n) (hn : 0 < n) :
    wp (allocuvm L d sz new) (fun r _ => Resized L sz n d r.1 r.2 ∧ (r.1 = 0 ∨ r.1 = new) ∧
      (KERNBASE ≤ new → r.1 = 0)) E m := by
  obtain ⟨total, hvalid, hacc⟩ := hd.exists_accounts hm
  have habs : ∀ q, pageCount sz ≤ q → q < userPages → ¬ (d.pte q).Present := fun q h₁ h₂ hpres =>
    not_lt.mpr h₁ (lt_pageCount.mpr ((hd.present q h₂).mp hpres))
  refine wp_allocuvm hvalid hacc habs (fun _ => ⟨.short hn hd fun _ _ => rfl, .inl rfl, fun _ => rfl⟩)
    (fun hless => by omega) (fun hlt _ d₁ d' m' hhalts hclear hacc' => ?_) fun hlt hle d' m' hext hacc' => ?_
  · obtain ⟨k, m₁, h₁, h₂, hext, -⟩ := hhalts
    -- What was mapped is given back, and the rest is as before.
    have hpages : ∀ q < userPages, d'.page q = d.page q := by
      intro q hq
      by_cases hin : pageCount sz ≤ q ∧ q < pageCount new
      · rw [Dir.page_eq_none.mpr (hclear.gone q hin.1 hin.2), Dir.page_eq_none.mpr (habs q hin.1 hq)]
      · exact Dir.page_congr ((hclear.pte q hin).trans (hext.old q (by omega)))
    refine ⟨.short hn (hacc'.maps hvalid fun q hq => ?_) hpages, .inl rfl, fun _ => rfl⟩
    rw [← hd.present q hq, ← not_iff_not, ← Dir.page_eq_none, ← Dir.page_eq_none, hpages q hq]
  · refine ⟨.done new hnew (by omega) hlt (hacc'.maps hvalid fun q hq => ?_), .inr rfl, fun hge => by omega⟩
    by_cases hin : pageCount sz ≤ q ∧ q < pageCount new
    · exact iff_of_true (hext.present hin.1 hin.2) (lt_pageCount.mp hin.2)
    · have hmono := pageCount_mono hle
      rw [hext.old q hin, hd.present q hq, ← lt_pageCount, ← lt_pageCount]
      omega

/-- Memory is given back. -/
theorem wp_resizeDir_shrink (hm : m.Sound L) (hd : d.Maps L sz) (hlt : sz < KERNBASE) {new : Nat}
    (hnew : new < sz → (new : Int) = sz + n) (hwrap : sz ≤ new → sz + n < 0) :
    wp (deallocuvm L d sz new) (fun r _ => Resized L sz n d r.1 r.2 ∧ r.1 = min sz new) E m := by
  obtain ⟨total, hvalid, hacc⟩ := hd.exists_accounts hm
  refine (wp_deallocuvm hvalid hlt.le hacc).post fun r m' ⟨hr, hclear, hacc', _⟩ => ?_
  obtain ⟨r, d'⟩ := r
  obtain rfl : r = min sz new := hr
  refine ⟨?_, rfl⟩
  dsimp only at hclear hacc' ⊢
  by_cases hless : new < sz
  · have hmaps : d'.Maps L new := hacc'.maps hvalid fun q hq => by
      have hmono := pageCount_mono hless.le
      by_cases hin : pageCount new ≤ q ∧ q < pageCount sz
      · exact iff_of_false (hclear.gone q hin.1 hin.2) fun h => by
          have := lt_pageCount.mpr h
          omega
      · rw [hclear.pte q hin, hd.present q hq, ← lt_pageCount, ← lt_pageCount]
        omega
    rw [Nat.min_eq_right hless.le]
    by_cases hzero : new = 0
    · subst hzero
      exact .emptied (by have := hnew hless; omega) hmaps
    · exact .done new (hnew hless) (by omega) (by omega) hmaps
  · rw [Nat.min_eq_left (not_lt.mp hless)]
    exact .wrapped (hwrap (not_lt.mp hless))

theorem wp_resizeDir (hm : m.Sound L) (hd : d.Maps L sz) (hpos : 0 < sz) (hlt : sz < KERNBASE)
    (hn : -2 ^ 31 ≤ n ∧ n < 2 ^ 31) : wp (resizeDir L sz n d) (fun r _ =>
      Resized L sz n d r.1 r.2 ∧ newSize sz n (decide (r.1 ≠ 0)) = r.1) E m := by
  have hkern : KERNBASE = 2 ^ 31 := rfl
  unfold resizeDir newSize
  split
  · next hgt =>
    have hnew : (grownSize sz n : Int) = sz + n := by
      unfold grownSize
      omega
    refine (wp_resizeDir_grow hm hd hnew hgt).post fun r _ ⟨hres, hval, hbig⟩ => ⟨hres, ?_⟩
    split
    · next hge => exact (hbig hge).symm
    · rw [if_neg (by omega)]
      rcases hval with h | h
      · rw [h]
        rfl
      · rw [if_pos (decide_eq_true (by omega)), h]
  · next hgt =>
    split
    · next hneg =>
      refine (wp_resizeDir_shrink hm hd hlt (fun hless => ?_) fun hge => ?_).post fun r _ ⟨hres, hval⟩ => ⟨hres, ?_⟩
      · unfold grownSize at hless ⊢
        omega
      · unfold grownSize at hge
        omega
      · rw [hval]
        split <;> omega
    · next hneg =>
      obtain rfl : n = 0 := by omega
      exact ⟨.done sz (by omega) hpos hlt hd, rfl⟩

end Resize

end Paging

/-! ## Calls -/

structure Paged where
  kernel : Kernel
  dirs : Page → Dir

/-- A call that has to do with memory. -/
inductive MemCall where
  | fork (stack : Option Page)
  | threadCreate (stack : Option Page) (junk : ℚ)
  | sbrk (n : Int)
  | exec (ip : Option FileData) (argv : List Arg)

/-- A call with a machine integer. -/
def MemCall.InRange : MemCall → Prop
  | .sbrk n => -2 ^ 31 ≤ n ∧ n < 2 ^ 31
  | _ => True

namespace Paged

/-- The page directory of `c`. -/
def dirOf (m : Paged) (c : Slot) : Dir :=
  match (m.kernel.proc c).pgdir with
  | none => ⟨0, fun _ => none⟩
  | some d => m.dirs d

/-- The page directories, after that of `c` has changed. -/
def setDir (m : Paged) (c : Slot) (D : Dir) : Page → Dir :=
  match (m.kernel.proc c).pgdir with
  | none => m.dirs
  | some d => Function.update m.dirs d D

/-- What a call does to page directories, and how it goes on. -/
def plan (L : Layout) (m : Paged) (c : Slot) : MemCall → Paging.MProg (SysCall × (Page → Dir))
  | .fork stack =>
    -- `copyuvm` is called after `allocproc`.
    if m.kernel.freeSlot = none ∨ stack = none then pure (.fork stack none, m.dirs)
    else do
      match ← Paging.copyuvm L (m.dirOf c) (m.kernel.proc c).sz with
      | none => pure (.fork stack none, m.dirs)
      | some d => pure (.fork stack (some d.frame), Function.update m.dirs d.frame d)
  | .threadCreate stack junk => pure (.threadCreate stack junk, m.dirs)
  | .sbrk n => do
    let (sz, d) ← Paging.resizeDir L (m.kernel.proc c).sz n (m.dirOf c)
    pure (.sbrk n (decide (sz ≠ 0)), m.setDir c d)
  | .exec ip argv => do
    match ← Paging.loadProgram L ip argv with
    | none => pure (.exec .bad, m.dirs)
    | some g => do
      let (sz, k, d) ← Paging.stackLoop L NPROC g.usz 0 g.dir
      pure (.exec (if sz = 0 then .short d.frame g.usz k else .ok d.frame g.usz), Function.update m.dirs d.frame d)

/-- `c` makes the call when the memory is `mem`, and it returns. -/
structure Step (L : Layout) (m : Paged) (c : Slot) (call : MemCall) (mem : Mem) (r : Outcome Int) (m' : Paged)
    (sys : SysCall) : Prop where
  plan : ∃ mem', m.plan L c call mem = .ok ((sys, m'.dirs), mem')
  ready : sys.Ready m.kernel c
  run : sys.run c m.kernel = .ok (r, m'.kernel)

inductive Run (L : Layout) (Ok : Paged → Slot → MemCall → Mem → Prop) (m : Paged) : Paged → Prop where
  | refl : Run L Ok m m
  | idle {n : Paged} {s : Kernel} (h : Run L Ok m n) (hidle : Idle n.kernel s) : Run L Ok m ⟨s, n.dirs⟩
  | call {n n' : Paged} {c : Slot} {call : MemCall} {mem : Mem} {r : Outcome Int} {sys : SysCall} (h : Run L Ok m n)
      (hmem : mem.Sound L) (hok : Ok n c call mem) (hstep : n.Step L c call mem r n' sys) : Run L Ok m n'

/-- The first process has the directory `D`. -/
def start (stack dir : Page) (root : InodePtr) (D : Dir) : Paged := ⟨boot stack dir root, fun _ => D⟩

/-- How a call goes on, and what it has done to page directories. -/
inductive Planned (L : Layout) (m : Paged) (c : Slot) (mem : Mem) : MemCall → SysCall → (Page → Dir) → Prop where
  | forkFails {stack} : Planned L m c mem (.fork stack) (.fork stack none) m.dirs
  | forks {stack d} (hstack : stack ≠ none) (hslot : m.kernel.freeSlot ≠ none) (hd : d.Maps L (m.kernel.proc c).sz) :
      Planned L m c mem (.fork stack) (.fork stack (some d.frame)) (Function.update m.dirs d.frame d)
  | threadCreate {stack junk} : Planned L m c mem (.threadCreate stack junk) (.threadCreate stack junk) m.dirs
  | sbrk {n new d} (h : Paging.Resized L (m.kernel.proc c).sz n (m.dirOf c) new d)
      (hnew : newSize (m.kernel.proc c).sz n (decide (new ≠ 0)) = new) :
      Planned L m c mem (.sbrk n) (.sbrk n (decide (new ≠ 0))) (m.setDir c d)
  | bad {ip argv} (hno : ∀ usz, ¬ Commits ip argv mem.free.length usz) :
      Planned L m c mem (.exec ip argv) (.exec .bad) m.dirs
  | short {ip argv usz k d} (hcommit : Commits ip argv mem.free.length usz)
      (hno : ¬ StacksFit mem.free.length usz NPROC) :
      Planned L m c mem (.exec ip argv) (.exec (.short d.frame usz k)) (Function.update m.dirs d.frame d)
  | loaded {ip argv usz d} (hcommit : Commits ip argv mem.free.length usz)
      (hfits : StacksFit mem.free.length usz NPROC) (hfirst : mem.free.head? = some d.frame)
      (hd : d.Maps L (usz + NPROC * (2 * PGSIZE))) :
      Planned L m c mem (.exec ip argv) (.exec (.ok d.frame usz)) (Function.update m.dirs d.frame d)

section Plan

variable {L : Layout} {m : Paged} {c : Slot} {mem : Mem}

theorem wp_plan (hm : mem.Sound L) (hd : (m.dirOf c).Maps L (m.kernel.proc c).sz) (hpos : 0 < (m.kernel.proc c).sz)
    (hlt : (m.kernel.proc c).sz < KERNBASE) {call : MemCall} (hcall : call.InRange) :
    wp (m.plan L c call) (fun r _ => m.Planned L c mem call r.1 r.2)
      (fun _ => ∃ ip argv, call = .exec ip argv ∧ ¬ Paging.PushFits argv) mem := by
  cases call with
  | fork stack =>
    rw [plan]
    split
    · exact .forkFails
    next hthere =>
    obtain ⟨hslot, hstack⟩ := not_or.mp hthere
    have hpages := Paging.pageCount_le_userPages.mpr hlt.le
    rw [wp_bind]
    refine (Paging.wp_copyuvm hm fun q hq => (hd.present q (hq.trans_le hpages)).mpr (lt_pageCount.mp hq)).mono
      (fun r mem' hr => ?_) fun e he => absurd he.2.1 (not_lt.mpr hpages)
    cases r with
    | none => exact .forkFails
    | some d => exact .forks hstack hslot (hr.1.toGrown.maps hm.valid)
  | threadCreate stack junk => exact .threadCreate
  | sbrk n =>
    rw [plan, wp_bind]
    exact (Paging.wp_resizeDir hm hd hpos hlt hcall).post fun r mem' hr => .sbrk hr.1 hr.2
  | exec ip argv =>
    rw [plan, wp_bind]
    refine (Paging.wp_loadProgram ip argv hm).mono (fun r mem' hr => ?_) fun _ he => ⟨ip, argv, rfl, he⟩
    cases r with
    | none => exact .bad hr.2
    | some g =>
      obtain ⟨hcommit, hgrown⟩ := hr
      have hsize := hcommit.pos
      dsimp only
      rw [wp_bind]
      refine (Paging.wp_stackLoop hm.valid NPROC g.usz 0 g.dir mem' hsize.1 hsize.2 hgrown).post fun r mem'' hr => ?_
      rw [wp_pure]
      by_cases hzero : r.1 = 0
      · rw [if_pos hzero]
        exact .short hcommit (hr.1 hzero).1
      · rw [if_neg hzero]
        obtain ⟨hfits, hgrown'⟩ := hr.2 hzero
        exact .loaded hcommit hfits hgrown'.first (hgrown'.maps hm.valid)

/-- The argument of a call that is made is a machine integer. -/
theorem Step.inRange {call : MemCall} {r : Outcome Int} {m' : Paged} {sys : SysCall} (h : m.Step L c call mem r m' sys) :
    call.InRange := by
  cases call with
  | sbrk n =>
    obtain ⟨mem', hplan⟩ := h.plan
    have hsys : wp (m.plan L c (.sbrk n)) (fun r _ => ∃ room, r.1 = .sbrk n room) (fun _ => True) mem := by
      rw [Paged.plan, wp_bind]
      exact wp_of_forall (fun _ _ => ⟨_, rfl⟩) fun _ => trivial
    obtain ⟨room, rfl⟩ := hsys.of_run hplan
    exact h.ready.fresh
  | _ => trivial

end Plan

end Paged

end Xv6
