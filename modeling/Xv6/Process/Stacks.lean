-- SUMMARY: Where the stacks of threads are.
import Mathlib.Order.CompletePartialOrder
import Xv6.Process.Directories

/-! # Stacks of threads

`exec` maps two pages for each of `NPROC` stacks above the stack of the main thread,
and `thread_create` gives the new thread the two pages that end at
`curproc->usz + tid * 2 * PGSIZE`. So the place of a stack depends on the thread id and
on `usz` of who creates it. Id 0 is the place of the main thread: `exec` gives it to
processes that have not taken it, and then reaping frees it for a thread. A process
forked by a thread has `usz` of the thread, and its threads' stacks leave the area.
-/

namespace Xv6

open Prog

/-! ## Thread ids -/

/-- Ids other than 0 are taken by one slot each. The converse fails: ids get lost. -/
structure Kernel.OwnTids (s : Kernel) : Prop where
  taken : ∀ q, (s.proc q).tid ≠ 0 → s.ttable (s.proc q).tid = true
  inj : ∀ p q, (s.proc p).tid ≠ 0 → (s.proc p).tid = (s.proc q).tid → p = q

theorem Kernel.freeTid_free {s : Kernel} {i : Tid} (h : s.freeTid = some i) : s.ttable i = false := by
  simpa using List.find?_some h

namespace Kernel.OwnTids

variable {s t : Kernel} {p : Slot}

theorem congr (h : s.OwnTids) (htable : t.ttable = s.ttable) (htid : ∀ q, (t.proc q).tid = (s.proc q).tid) :
    t.OwnTids := by
  constructor
  · intro q
    rw [htable, htid]
    exact h.taken q
  · intro p q
    rw [htid, htid]
    exact h.inj p q

/-- A slot gets id 0. -/
theorem clear (h : s.OwnTids) (htable : t.ttable = s.ttable)
    (hother : ∀ q, q ≠ p → (t.proc q).tid = (s.proc q).tid) (hp : (t.proc p).tid = 0) : t.OwnTids := by
  obtain ⟨htaken, hinj⟩ := h
  constructor <;> grind

/-- A slot gives up its id. -/
theorem release (h : s.OwnTids) (htable : t.ttable = Function.update s.ttable (s.proc p).tid false)
    (hother : ∀ q, q ≠ p → (t.proc q).tid = (s.proc q).tid) (hp : (t.proc p).tid = 0) : t.OwnTids := by
  have htable' : ∀ i, t.ttable i = if i = (s.proc p).tid then false else s.ttable i := fun i => by
    rw [htable, Function.update_apply]
  obtain ⟨htaken, hinj⟩ := h
  constructor <;> grind

/-- A slot gets the id that `allocproc` finds, or 0 if there is none. -/
theorem claim (h : s.OwnTids) (hclaims : s.Claims t) (hother : ∀ q, q ≠ p → (t.proc q).tid = (s.proc q).tid)
    (hp : (t.proc p).tid = s.freeTid.getD 0) : t.OwnTids := by
  cases hi : s.freeTid with
  | none =>
    have htable := hclaims.ttable
    rw [hi] at htable hp
    exact h.clear htable hother hp
  | some i =>
    have htable := hclaims.ttable
    have hfree := freeTid_free hi
    rw [hi] at htable hp
    dsimp only [Option.getD_some] at htable hp
    have htable' : ∀ j, t.ttable j = if j = i then true else s.ttable j := fun j => by
      rw [htable, Function.update_apply]
    obtain ⟨htaken, hinj⟩ := h
    constructor <;> grind

theorem spoil {dir : Option Page} (h : s.OwnTids) : (s.spoiled p dir).OwnTids :=
  h.claim claims_spoiled (fun q hq => (drops_spoiled.other q hq).tid) spoiled_tid

end Kernel.OwnTids

/-! ## Layout -/

/-- Where the area for stacks begins in the image that `q` uses. -/
def Kernel.areaOf (s : Kernel) (q : Slot) : Option Nat := (s.proc q).pgdir.bind s.area

theorem Kernel.areaOf_congr (s : Kernel) (p q : Slot) (h : (s.proc p).pgdir = (s.proc q).pgdir) :
    s.areaOf p = s.areaOf q := by
  unfold areaOf
  rw [h]

/-- The two pages of the stack of `q`. -/
def Kernel.stackOf (s : Kernel) (q : Slot) : Set Nat := Set.Ico ((s.proc q).usz - 2 * PGSIZE) (s.proc q).usz

/-- The area for stacks that begins at `b`. -/
def stackArea (b : Nat) : Set Nat := Set.Ico b (b + NPROC * (2 * PGSIZE))

/-- The stack of a thread has the place of its id in the area from `b`. -/
def Proc.Stacked (x : Proc) (b : Nat) : Prop :=
  x.isThread = true ∧ x.tid ≠ 0 ∧ x.usz = b + x.tid * (2 * PGSIZE)

/-- In an image there is one stack below the area, and the others have their places. -/
structure Kernel.Layout (s : Kernel) : Prop where
  area_fits : ∀ d b, s.area d = some b → 2 * PGSIZE ≤ b ∧ b < KERNBASE
  main_base : ∀ q b, s.Schedulable q → (s.proc q).isThread = false → s.areaOf q = some b → (s.proc q).usz = b
  placed : ∀ q b, s.Schedulable q → s.areaOf q = some b → (s.proc q).usz = b ∨ (s.proc q).Stacked b
  base_inj : ∀ p q b, s.Schedulable p → s.Schedulable q → (s.proc p).pgdir = (s.proc q).pgdir →
    s.areaOf p = some b → (s.proc p).usz = b → (s.proc q).usz = b → p = q

namespace Kernel.Layout

variable {s t : Kernel} {c p : Slot}

/-- Less processes can be scheduled, and those as before. -/
theorem mono (h : s.Layout) (harea : t.area = s.area)
    (hproc : ∀ q, t.Schedulable q → s.Schedulable q ∧ (s.proc q).Same (t.proc q)) : t.Layout := by
  have hq : ∀ q, t.Schedulable q → s.Schedulable q ∧ t.areaOf q = s.areaOf q ∧ (t.proc q).pgdir = (s.proc q).pgdir ∧
      (t.proc q).usz = (s.proc q).usz ∧ (t.proc q).tid = (s.proc q).tid ∧ (t.proc q).isThread = (s.proc q).isThread := by
    intro q hq
    obtain ⟨hs, hsame⟩ := hproc q hq
    refine ⟨hs, ?_, hsame.pgdir, hsame.usz, hsame.tid, hsame.isThread⟩
    unfold areaOf
    rw [hsame.pgdir, harea]
  obtain ⟨hfits, hmain, hplaced, hinj⟩ := h
  rw [← harea] at hfits
  constructor <;> grind [Proc.Stacked]

/-- `c` gets an image of its own, with its stack below the area. -/
theorem image (h : s.Layout) (hpage : s.PageInv) {dir : Page} {usz n : Nat} (hr : s.Reimages t c dir)
    (hfit : Fits s dir usz n) (harea : t.area = Function.update s.area dir (some usz)) (husz : (t.proc c).usz = usz) :
    t.Layout := by
  obtain ⟨hfresh, -, hlow, hhigh⟩ := hfit
  -- Who can be scheduled has a directory that is not the new one.
  have hother : ∀ q, q ≠ c → s.Schedulable q → t.areaOf q = s.areaOf q ∧ (t.proc q).pgdir = (s.proc q).pgdir ∧
      (s.proc q).pgdir ≠ some dir ∧ (t.proc q).usz = (s.proc q).usz ∧ (t.proc q).tid = (s.proc q).tid ∧
      (t.proc q).isThread = (s.proc q).isThread := by
    intro q hq hs
    obtain ⟨hdir, htid, hthread, -, husz, -⟩ := hr.ne q hq
    obtain ⟨d, hd, hl⟩ := hpage.dir_live q (.inl hs)
    have hne : d ≠ dir := by
      rintro rfl
      exact hfresh hl
    refine ⟨?_, hdir, ?_, husz, htid, hthread⟩
    · unfold areaOf
      rw [hdir, hd, harea]
      exact Function.update_of_ne hne _ _
    · rw [hd]
      exact fun h => hne (Option.some.inj h)
  have hself : t.areaOf c = some usz := by
    unfold areaOf
    rw [hr.pgdir, harea]
    exact Function.update_self _ _ _
  have harea' : ∀ d, t.area d = if d = dir then some usz else s.area d := fun d => by
    rw [harea, Function.update_apply]
  have hdir := hr.pgdir
  have hsched := hr.schedulable
  obtain ⟨hfits, hmain, hplaced, hinj⟩ := h
  clear hr hpage
  constructor <;> grind [Proc.Stacked]

/-- A new process has a copy of the image of `c`, whose stack is below the area. -/
theorem fork (h : s.Layout) (hpage : s.PageInv) {d k : Page} {pid : Int} {tid : Tid} (hc : s.Schedulable c)
    (hnot : (s.proc c).isThread = false) (hother : ∀ q, q ≠ p → t.proc q = s.proc q)
    (hb : (t.proc p).Born pid (some d) k tid false c (s.proc c).usz) (hfresh : d ∉ s.live)
    (harea : t.area = Function.update s.area d (s.areaOf c)) : t.Layout := by
  have hsched : ∀ q, q ≠ p → (t.Schedulable q ↔ s.Schedulable q) := fun q hq => by
    unfold Schedulable
    rw [hother q hq]
  have hold : ∀ q, q ≠ p → s.Schedulable q → t.areaOf q = s.areaOf q ∧ (s.proc q).pgdir ≠ some d := by
    intro q hq hs
    obtain ⟨d', hd, hl⟩ := hpage.dir_live q (.inl hs)
    have hne : d' ≠ d := by
      rintro rfl
      exact hfresh hl
    unfold areaOf
    rw [hother q hq, hd, harea]
    exact ⟨Function.update_of_ne hne _ _, fun h => hne (Option.some.inj h)⟩
  have hself : t.areaOf p = s.areaOf c := by
    unfold areaOf
    rw [hb.pgdir, harea]
    exact Function.update_self _ _ _
  have hbase : ∀ b, s.areaOf c = some b → (t.proc p).usz = b := fun b hb' => by
    rw [hb.usz]
    exact h.main_base c b hc hnot hb'
  have hfits' : ∀ b, s.areaOf c = some b → 2 * PGSIZE ≤ b ∧ b < KERNBASE := by
    intro b hb'
    obtain ⟨d', -, hd'⟩ := Option.bind_eq_some_iff.mp hb'
    exact h.area_fits d' b hd'
  have harea' : ∀ e, t.area e = if e = d then s.areaOf c else s.area e := fun e => by
    rw [harea, Function.update_apply]
  have hdir := hb.pgdir
  obtain ⟨hfits, hmain, hplaced, hinj⟩ := h
  clear hb hpage
  constructor <;> grind [Proc.Stacked]

/-- A new thread has the place of its id, which is not 0. -/
theorem create (h : s.Layout) {k : Page} {pid : Int} {tid : Tid} {usz : Nat}
    (hother : ∀ q, q ≠ p → (s.proc q).Like (t.proc q))
    (hb : (t.proc p).Born pid (s.proc c).pgdir k tid true c usz) (htid : tid ≠ 0)
    (husz : ∀ b, s.areaOf c = some b → usz = b + tid * (2 * PGSIZE)) (harea : t.area = s.area) : t.Layout := by
  have hold : ∀ q, q ≠ p → (t.Schedulable q ↔ s.Schedulable q) ∧ t.areaOf q = s.areaOf q ∧
      (t.proc q).pgdir = (s.proc q).pgdir ∧ (t.proc q).usz = (s.proc q).usz ∧ (t.proc q).tid = (s.proc q).tid ∧
      (t.proc q).isThread = (s.proc q).isThread := by
    intro q hq
    have hl := hother q hq
    refine ⟨hl.state.schedulable, ?_, hl.pgdir, hl.usz, hl.tid, hl.isThread⟩
    unfold areaOf
    rw [hl.pgdir, harea]
  have hself : t.areaOf p = s.areaOf c := by
    unfold areaOf
    rw [hb.pgdir, harea]
  have hstacked : ∀ b, s.areaOf c = some b → (t.proc p).Stacked b ∧ (t.proc p).usz ≠ b := by
    intro b hb'
    have hpos : 0 < (tid : Nat) := by
      rw [Nat.pos_iff_ne_zero]
      exact fun h => htid (Fin.ext h)
    refine ⟨⟨hb.isThread, hb.tid ▸ htid, ?_⟩, ?_⟩
    · rw [hb.usz, hb.tid, husz b hb']
    · rw [hb.usz, husz b hb']
      unfold PGSIZE
      omega
  have hthread := hb.isThread
  have hcongr := t.areaOf_congr
  obtain ⟨hfits, hmain, hplaced, hinj⟩ := h
  rw [← harea] at hfits
  clear hb hother
  constructor <;> grind [Proc.Stacked]

theorem like (h : s.Layout) (hl : s.Like t) : t.Layout :=
  h.mono hl.area fun q hq => ⟨(hl.schedulable q).mp hq,
    ⟨(hl.proc q).pid, (hl.proc q).pgdir, (hl.proc q).kstack, (hl.proc q).tid, (hl.proc q).isThread,
      (hl.proc q).isMainThread, (hl.proc q).usz⟩⟩

theorem retire (h : s.Layout) {Z : Slot → Prop} (hr : s.Retires t Z) : t.Layout :=
  h.mono hr.rest.area fun q hq => ⟨((hr.schedulable q).mp hq).1, hr.same q⟩

theorem drop (h : s.Layout) (hd : s.Drops t p) (harea : t.area = s.area) : t.Layout := by
  refine h.mono harea fun q hq => ?_
  have hqp : q ≠ p := by
    rintro rfl
    exact hd.unused (t.used_of_schedulable q hq)
  have hl := hd.other q hqp
  exact ⟨hl.state.schedulable.mp hq, hl.pid, hl.pgdir, hl.kstack, hl.tid, hl.isThread, hl.isMainThread, hl.usz⟩

end Kernel.Layout

/-! ## Runs -/

/-- Threads are created in an image that `exec` has set up, when id 0 is taken and
    another is free; threads do not fork; no main thread leaves its threads behind; `sbrk`
    takes nothing away, and pids do not run out. -/
def StackOk (s : Kernel) (c : Slot) : SysCall → Prop
  | .fork _ _ => s.nextpid < 2 ^ 31 - 1 ∧ (s.proc c).isThread = false
  | .threadCreate _ _ => s.nextpid < 2 ^ 31 - 1 ∧ s.areaOf c ≠ none ∧ s.ttable 0 = true ∧ ∃ i, s.ttable i = false
  | .threadExit _ => (s.proc c).isMainThread = true → s.AloneInDir c
  | .sbrk n _ => 0 ≤ n
  | _ => True

instance (s : Kernel) (c : Slot) : (call : SysCall) → Decidable (StackOk s c call)
  | .fork _ _ => inferInstanceAs (Decidable (s.nextpid < 2 ^ 31 - 1 ∧ (s.proc c).isThread = false))
  | .threadCreate _ _ => inferInstanceAs (Decidable (s.nextpid < 2 ^ 31 - 1 ∧ s.areaOf c ≠ none ∧ s.ttable 0 = true ∧
      ∃ i, s.ttable i = false))
  | .threadExit _ => inferInstanceAs (Decidable ((s.proc c).isMainThread = true → s.AloneInDir c))
  | .sbrk n _ => inferInstanceAs (Decidable (0 ≤ n))
  | .exit | .exec _ | .wait | .threadJoin _ | .kill _ | .setCpuShare _ | .file _ => .isTrue trivial

theorem StackOk.dirOk {s : Kernel} {c : Slot} {call : SysCall} (h : StackOk s c call) : DirOk s c call := by
  cases call with
  | fork => exact h.1
  | threadCreate => exact h.1
  | threadExit => exact h
  | sbrk => exact Int.add_nonneg (Int.natCast_nonneg _) h
  | _ => trivial

/-- What carries the disjointness of stacks through a run. -/
structure Kernel.StackInv (s : Kernel) : Prop where
  page : s.PageInv
  tids : s.OwnTids
  layout : s.Layout

section StackInv

variable {s : Kernel} {c p : Slot}

theorem Kernel.freeTid_ne_zero (h₀ : s.ttable 0 = true) (hfree : ∃ i, s.ttable i = false) : s.freeTid.getD 0 ≠ 0 := by
  obtain ⟨i, hi⟩ := hfree
  have hsome : s.freeTid.isSome := by
    unfold freeTid
    rw [List.find?_isSome]
    exact ⟨i, mem_slots i, by simp [hi]⟩
  obtain ⟨j, hj⟩ := Option.isSome_iff_exists.mp hsome
  rw [hj, Option.getD_some]
  rintro rfl
  rw [freeTid_free hj] at h₀
  cases h₀

/-- The end of the new stack does not wrap around. -/
theorem Kernel.StackInv.stackTop_eq (h : s.StackInv) (hc : s.Schedulable c) (hnot : (s.proc c).isThread = false)
    (tid : Tid) (b : Nat) (hb : s.areaOf c = some b) : s.stackTop c tid = b + tid * (2 * PGSIZE) := by
  obtain ⟨d, -, hd⟩ := Option.bind_eq_some_iff.mp hb
  obtain ⟨-, hlt⟩ := h.layout.area_fits d b hd
  have htid := tid.isLt
  unfold stackTop
  rw [h.layout.main_base c b hc hnot hb, Nat.mod_eq_of_lt]
  · rw [Nat.mul_assoc]
  · unfold KERNBASE at hlt
    unfold NPROC at htid
    unfold PGSIZE
    omega

theorem Kernel.StackInv.like {t : Kernel} (h : s.StackInv) (hl : s.Like t) : t.StackInv :=
  ⟨h.page.like hl, h.tids.congr hl.ttable fun q => (hl.proc q).tid, h.layout.like hl⟩

theorem keeps_stackInv : Keeps StackOk Kernel.StackInv where
  like h hl _ := h.like hl
  setCpuShare h _ _ _ := wp_setCpuShare_like.mono (fun _ _ hl => h.like hl) fun _ _ => trivial
  forkSpoiled h hc hp hok hno := by
    exact ⟨keeps_pageInv.forkSpoiled h.page hc hp hok.dirOk hno, h.tids.spoil, h.layout.drop Kernel.drops_spoiled rfl⟩
  createSpoiled {s c p junk} h hc hnot hp hok := by
    exact ⟨keeps_pageInv.createSpoiled h.page hc hnot hp hok.dirOk, h.tids.spoil,
      h.layout.drop Kernel.drops_spoiled rfl⟩
  forked {s c p k d f} h hc hp hk hd hkd hok := by
    have hother : ∀ q, q ≠ p → (s.forked c p k d f).proc q = s.proc q := fun q hq => Kernel.forked_proc_ne hq
    refine ⟨keeps_pageInv.forked h.page hc hp hk hd hkd hok.dirOk,
      h.tids.claim Kernel.claims_forked (fun q hq => ?_) Kernel.forked_born.tid,
      h.layout.fork h.page (Kernel.schedulable_of_running hc) hok.2 hother
        Kernel.forked_born hd rfl⟩
    rw [hother q hq]
  threadUp {s c p k junk pass f} h hc hnot hp hk hok := by
    have hborn := fun usz sz => @Kernel.threadUp_born s c p k pass f usz sz
      (Kernel.ne_freeSlot (Kernel.used_of_running hc) hp)
    have harea := @Kernel.threaded_area s c p k pass f
    have hpage := @Keeps.threadUp _ _ keeps_pageInv s c p k junk pass f h.page hc hnot hp hk hok.dirOk
    refine ⟨hpage, h.tids.claim Kernel.claims_threadUp (fun q hq => (Kernel.threadUp_like hq).tid) (hborn _ _).tid, ?_⟩
    exact h.layout.create (fun q hq => Kernel.threadUp_like hq) (hborn _ _)
      (Kernel.freeTid_ne_zero hok.2.2.1 hok.2.2.2) (h.stackTop_eq (Kernel.schedulable_of_running hc) hnot _)
      harea
  threadDown {s c p k junk pass f} h hc hnot hp hk hpush hok := by
    have hpage := @Keeps.threadDown _ _ keeps_pageInv s c p k junk pass f h.page hc hnot hp hk hpush hok.dirOk
    have harea := @Kernel.threaded_area s c p k pass f
    have hdrop := @Kernel.drops_threadDown s c p k pass f
    have htid := @Kernel.threadDown_tid s c p k pass f (Kernel.ne_freeSlot (Kernel.used_of_running hc) hp)
    exact ⟨hpage, h.tids.claim Kernel.claims_threadDown (fun q hq => (hdrop.other q hq).tid) htid,
      h.layout.drop hdrop harea⟩
  exited h hc hne hok ht := ⟨keeps_pageInv.exited h.page hc hne hok.dirOk ht,
    h.tids.congr ht.retires.rest.ttable fun q => (ht.retires.same q).tid, h.layout.retire ht.retires⟩
  threadExited {s t c v} h hc hne hok ht := by
    have hlike : s.Like (s.upd c fun x => { x with retval := v }) :=
      .of_upd ⟨.inl rfl, rfl, rfl, rfl, rfl, rfl, rfl, rfl, rfl⟩
    refine ⟨keeps_pageInv.threadExited h.page hc hne hok.dirOk ht, h.tids.congr ht.retires.rest.ttable fun q => ?_,
      (h.layout.like hlike).retire ht.retires⟩
    exact (ht.retires.same q).tid.trans (hlike.proc q).tid
  imaged {s c dir usz n} h hc hfit hn hok := by
    have hself := @Kernel.imaged_proc_same s c dir usz n
    refine ⟨keeps_pageInv.imaged h.page hc hfit hn hok.dirOk, h.tids.congr rfl fun q => ?_,
      h.layout.image h.page Kernel.reimages_imaged hfit rfl (by rw [hself]; rfl)⟩
    by_cases hq : q = c
    · rw [hq, hself]
      rfl
    · rw [Kernel.imaged_proc_ne hq]
  execed {s t c dir old usz} h hc hnot hold hfit hok hz := by
    have hself := @Kernel.execed_proc_same s c dir usz
    have htids : (s.execed c dir usz).OwnTids := h.tids.clear rfl (fun q hq => by rw [Kernel.execed_proc_ne hq])
      (by rw [hself]; rfl)
    have hlayout := h.layout.image h.page Kernel.reimages_execed hfit rfl (by rw [hself]; rfl)
    refine ⟨keeps_pageInv.execed h.page hc hnot hold hfit hok.dirOk hz,
      htids.congr hz.retires.rest.ttable fun q => (hz.retires.same q).tid, ?_⟩
    obtain ⟨h₁, h₂, h₃, h₄⟩ := hlayout.retire hz.retires
    exact ⟨h₁, h₂, h₃, h₄⟩
  promoted {s t c m dir old usz} h hc ht hold hparent hfit hok hz := by
    obtain ⟨b, hself⟩ := @Kernel.promoted_proc_same s c m dir usz
    have hr := @Kernel.reimages_promoted s c m dir usz
    have htids : (s.promoted c m dir usz).OwnTids := by
      refine h.tids.congr rfl fun q => ?_
      by_cases hq : q = c
      · rw [hq, hself]
        rfl
      · exact (hr.ne q hq).2.1
    have hlayout := h.layout.image h.page hr hfit rfl (by rw [hself]; rfl)
    refine ⟨keeps_pageInv.promoted h.page hc ht hold hparent hfit hok.dirOk hz,
      htids.congr hz.retires.rest.ttable fun q => (hz.retires.same q).tid, ?_⟩
    obtain ⟨h₁, h₂, h₃, h₄⟩ := hlayout.retire hz.retires
    exact ⟨h₁, h₂, h₃, h₄⟩
  reaped {s p k} h hz hm hk := by
    refine ⟨keeps_pageInv.reaped h.page hz hm hk,
      h.tids.release rfl (fun q hq => (Kernel.drops_reaped.other q hq).tid) ?_, h.layout.drop Kernel.drops_reaped rfl⟩
    rw [Kernel.reaped_proc_same]
    rfl
  buried {s p k d} h hz hm hk hd := by
    have hrest : (s.buried p k).area = s.area ∧
        (s.buried p k).ttable = Function.update s.ttable (s.proc p).tid false := by
      unfold Kernel.buried Kernel.reaped
      rw [Kernel.refunded_eq]
      exact ⟨rfl, by rw [Kernel.upd_proc_same]; rfl⟩
    have htids : (s.buried p k).OwnTids := by
      refine h.tids.release hrest.2 (fun q hq => (Kernel.drops_buried.other q hq).tid) ?_
      rw [Kernel.buried_proc_same]
      rfl
    obtain ⟨h₁, h₂, h₃, h₄⟩ := h.layout.drop (@Kernel.drops_buried s p k) hrest.1
    exact ⟨keeps_pageInv.buried h.page hz hm hk hd, htids.congr rfl fun _ => rfl, ⟨h₁, h₂, h₃, h₄⟩⟩
  joined {s c p k thread t} h hc ht hp hk hok := by
    obtain ⟨j, hj⟩ := @Kernel.joined_proc_same s c p k
    have hrest : (s.joined c p k).area = s.area ∧
        (s.joined c p k).ttable = Function.update s.ttable (s.proc p).tid false := by
      unfold Kernel.joined Kernel.reaped
      rw [Kernel.refunded_eq]
      exact ⟨rfl, rfl⟩
    refine ⟨keeps_pageInv.joined h.page hc ht hp hk hok.dirOk,
      h.tids.release hrest.2 (fun q hq => (Kernel.drops_joined.other q hq).tid) ?_,
      h.layout.drop Kernel.drops_joined hrest.1⟩
    rw [hj]
    rfl

theorem boot_stackInv {k d : Page} {root : InodePtr} (hkd : k ≠ d) : (boot k d root).StackInv := by
  have harea : ∀ q, (boot k d root).areaOf q = none := fun q => Option.bind_fun_none _
  have htid : ∀ q, ((boot k d root).proc q).tid = 0 := by
    intro q
    by_cases hq : q = 0
    · rw [hq]
      rfl
    · rw [boot_proc_ne hq]
      rfl
  refine ⟨boot_pageInv hkd, ⟨fun q hq => absurd (htid q) hq, fun p q hp _ => absurd (htid p) hp⟩, ?_⟩
  constructor
  · intro d b h
    cases h
  all_goals grind

/-- The place of an id other than 0 is in the area. -/
theorem Proc.Stacked.bounds {x : Proc} {b : Nat} (h : x.Stacked b) :
    b + 2 * PGSIZE ≤ x.usz ∧ x.usz ≤ b + NPROC * (2 * PGSIZE) := by
  obtain ⟨-, htid, husz⟩ := h
  have hpos : 0 < (x.tid : Nat) := by
    rw [Nat.pos_iff_ne_zero]
    exact fun h => htid (Fin.ext h)
  have hlt := x.tid.isLt
  unfold NPROC PGSIZE at *
  omega

/-- Two who can be scheduled in one image have different stacks. -/
theorem Kernel.StackInv.disjoint (h : s.StackInv) {q : Slot} {b : Nat} (hp : s.Schedulable p) (hq : s.Schedulable q)
    (hne : p ≠ q) (hdir : (s.proc p).pgdir = (s.proc q).pgdir) (hb : s.areaOf p = some b) :
    Disjoint (s.stackOf p) (s.stackOf q) := by
  have hb' := s.areaOf_congr p q hdir ▸ hb
  have hapart : (s.proc p).usz + 2 * PGSIZE ≤ (s.proc q).usz ∨ (s.proc q).usz + 2 * PGSIZE ≤ (s.proc p).usz := by
    rcases h.layout.placed p b hp hb with hpb | hps
    · rcases h.layout.placed q b hq hb' with hqb | hqs
      · exact absurd (h.layout.base_inj p q b hp hq hdir hb hpb hqb) hne
      · exact .inl (hpb ▸ hqs.bounds.1)
    · rcases h.layout.placed q b hq hb' with hqb | hqs
      · exact .inr (hqb ▸ hps.bounds.1)
      · have htid : ((s.proc p).tid : Nat) ≠ (s.proc q).tid := fun heq =>
          hne (h.tids.inj p q hps.2.1 (Fin.ext heq))
        rw [hps.2.2, hqs.2.2]
        unfold PGSIZE
        omega
  refine Set.disjoint_left.mpr fun a ha ha' => ?_
  unfold stackOf at ha ha'
  rw [Set.mem_Ico] at ha ha'
  omega

/-- In every run that meets the condition, a new thread gets the two pages that end at
    `curproc->usz + tid * 2 * PGSIZE`. They are in the area that `exec` has mapped, hence
    not in the stack below it or in the heap above it, and nobody else who can be
    scheduled in that image has its stack there. -/
theorem stacks_disjoint {k d : Page} {root : InodePtr} {stack : Option Page} {junk : ℚ} (hkd : k ≠ d)
    (h : Run StackOk (boot k d root) s) (hready : (SysCall.threadCreate stack junk).Ready s c)
    (hok : StackOk s c (.threadCreate stack junk)) :
    wp (threadCreate c stack junk) (fun r u => r.1 = 0 → ∃ p b, s.freeSlot = some p ∧ r.2 = some (u.proc p).tid ∧
      (u.proc p).pgdir = (s.proc c).pgdir ∧ u.areaOf p = some b ∧ (s.proc c).usz = b ∧
      (u.proc p).usz = (s.proc c).usz + (u.proc p).tid * 2 * PGSIZE ∧
      u.stackOf p ⊆ stackArea b ∧ Disjoint (u.stackOf p) (Set.Ico (b - 2 * PGSIZE) b) ∧
      Disjoint (u.stackOf p) (Set.Ici (b + NPROC * (2 * PGSIZE))) ∧
      ∀ q, q ≠ p → u.Schedulable q → (u.proc q).pgdir = (u.proc p).pgdir → Disjoint (u.stackOf p) (u.stackOf q))
      (fun _ => True) s := by
  have hinv := keeps_stackInv.run h (boot_stackInv hkd)
  have hrun := hready.running
  have hsched := Kernel.schedulable_of_running hrun
  have hfail : ∀ {P : Prop}, (-1 : Int) = 0 → P := fun h => absurd h (by decide)
  refine wp_threadCreate (Kernel.used_of_running hrun) (fun _ => hfail) (fun _ _ _ _ => hfail) (fun p k' pass f _ _ hnot hp hk hpush _ => ?_)
    (fun _ _ _ _ _ _ _ _ _ _ => hfail) fun _ _ _ => trivial
  subst hk
  have hu := @Keeps.threadUp _ _ keeps_stackInv s c p k' junk pass f hinv hrun hnot hp (hready.fresh k' rfl) hok
  have hborn := @Kernel.threadUp_born s c p k' pass f (s.stackTop c (s.freeTid.getD 0)) (s.proc c).sz
    (Kernel.ne_freeSlot (Kernel.used_of_running hrun) hp)
  have harea := @Kernel.threaded_area s c p k' pass f
  change ((s.threaded c p k' pass f).threadUp p (s.stackTop c (s.freeTid.getD 0)) (s.proc c).sz).area = s.area at harea
  generalize (s.threaded c p k' pass f).threadUp p (s.stackTop c (s.freeTid.getD 0)) (s.proc c).sz = u at *
  obtain ⟨b, hb⟩ := Option.ne_none_iff_exists'.mp hok.2.1
  have hub : u.areaOf p = some b := by
    unfold Kernel.areaOf
    rw [hborn.pgdir, harea]
    exact hb
  have hup : u.Schedulable p := .inr (.inl hborn.state)
  have hbase := hinv.layout.main_base c b hsched hnot hb
  have husz : (u.proc p).usz = b + (u.proc p).tid * (2 * PGSIZE) := by
    rw [hborn.usz, hborn.tid]
    exact hinv.stackTop_eq hsched hnot _ b hb
  have htid : (u.proc p).tid ≠ 0 := hborn.tid ▸ Kernel.freeTid_ne_zero hok.2.2.1 hok.2.2.2
  have hstacked : (u.proc p).Stacked b := ⟨hborn.isThread, htid, husz⟩
  obtain ⟨hlow, hhigh⟩ := hstacked.bounds
  refine ⟨p, b, hp, by rw [hborn.tid], hborn.pgdir, hub, hbase, ?_, ?_, ?_, ?_, fun q hq hqs hqd => ?_⟩
  · rw [husz, hbase, Nat.mul_assoc]
  · exact Set.Ico_subset_Ico (by omega) hhigh
  · refine Set.disjoint_left.mpr fun a ha ha' => ?_
    unfold Kernel.stackOf at ha
    rw [Set.mem_Ico] at ha ha'
    omega
  · refine Set.disjoint_left.mpr fun a ha ha' => ?_
    unfold Kernel.stackOf at ha
    rw [Set.mem_Ico] at ha
    rw [Set.mem_Ici] at ha'
    omega
  · exact hu.disjoint hup hqs (Ne.symm hq) hqd.symm hub

end StackInv

/-- `init` loads a program and creates a thread; it creates another one in the state
    reached. -/
theorem stacks_disjoint_second : ∃ s u p b, Run StackOk (boot 0 1 0) s ∧ s.Schedulable 1 ∧
    threadCreate 0 (some 4) 0 s = .ok ((0, some 2), u) ∧ u.areaOf p = some b ∧ u.stackOf p ⊆ stackArea b ∧
    ∀ q, q ≠ p → u.Schedulable q → (u.proc q).pgdir = (u.proc p).pgdir → Disjoint (u.stackOf p) (u.stackOf q) := by
  have hplay : (play StackOk [(0, .exec (.ok 2 8192)), (0, .threadCreate (some 3) 0)] (boot 0 1 0)).any (fun s =>
      s.Schedulable 1 ∧ (SysCall.threadCreate (some 4) 0).Ready s 0 ∧ StackOk s 0 (.threadCreate (some 4) 0) ∧
      ((threadCreate 0 (some 4) 0).run s).toOption.map Prod.fst = some (0, some 2)) = true := by
    decide +kernel
  obtain ⟨s, hrun, hs⟩ := Run.exists_of_play hplay
  obtain ⟨hone, hready, hok, hres⟩ := of_decide_eq_true hs
  have hwp := stacks_disjoint (by decide) hrun hready hok
  cases hr : threadCreate 0 (some 4) 0 s with
  | error e =>
    rw [StateT.run, hr] at hres
    cases hres
  | ok ru =>
    rw [StateT.run, hr] at hres
    obtain ⟨r, u⟩ := ru
    obtain rfl : r = (0, some 2) := Option.some.inj hres
    obtain ⟨p, b, -, -, -, hb, -, -, hsub, -, -, hdis⟩ := hwp.of_run hr rfl
    exact ⟨s, u, p, b, hrun, hone, hr, hb, hsub, hdis⟩

/-- Two processes load programs, and one is joined, which frees id 0. -/
def joinedExec : List (Slot × SysCall) :=
  [(0, .fork (some 2) (some 3)), (0, .fork (some 4) (some 5)), (1, .exec (.ok 6 8192)), (2, .exec (.ok 7 8192)),
    (1, .threadExit 0), (0, .threadJoin 0), (2, .threadCreate (some 8) 0)]

/-- A thread of the other process gets the stack of its main thread. -/
theorem stack_of_main_shared : ∃ s, Run (fun _ _ _ => True) (boot 0 1 0) s ∧ s.Schedulable 1 ∧ s.Schedulable 2 ∧
    (s.proc 1).isThread = true ∧ (s.proc 1).parent = some 2 ∧ (s.proc 1).pgdir = (s.proc 2).pgdir ∧
    s.stackOf 1 = s.stackOf 2 ∧ ¬ Disjoint (s.stackOf 1) (s.stackOf 2) := by
  have hplay : (play (fun _ _ _ => True) joinedExec (boot 0 1 0)).any (fun s => s.Schedulable 1 ∧ s.Schedulable 2 ∧
      (s.proc 1).isThread = true ∧ (s.proc 1).parent = some 2 ∧ (s.proc 1).pgdir = (s.proc 2).pgdir ∧
      (s.proc 1).usz = 8192 ∧ (s.proc 2).usz = 8192) = true := by
    decide +kernel
  obtain ⟨s, hrun, hs⟩ := Run.exists_of_play hplay
  obtain ⟨h₁, h₂, hthread, hparent, hdir, husz₁, husz₂⟩ := of_decide_eq_true hs
  have hstack : s.stackOf 1 = s.stackOf 2 := by
    unfold Kernel.stackOf
    rw [husz₁, husz₂]
  refine ⟨s, hrun, h₁, h₂, hthread, hparent, hdir, hstack, fun hdis => ?_⟩
  have hmem : 0 ∈ s.stackOf 1 := by
    unfold Kernel.stackOf
    rw [husz₁]
    exact ⟨le_rfl, by decide⟩
  exact Set.disjoint_left.mp hdis hmem (hstack ▸ hmem)

end Xv6
