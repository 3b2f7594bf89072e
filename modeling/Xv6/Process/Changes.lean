-- SUMMARY: The kinds of change that a step makes to the process table.
import Xv6.Process.Rules

/-! # Changes to the process table

What the calls leave behind falls into five kinds: no slot changes hands, processes
become zombies, a process gets a new image, a slot is given up, a slot is taken. Each
kind is a structure that says what invariants need to know, and each state that a
rule names is of one of these kinds, or of two after each other.
-/

namespace Xv6

/-! ## No slot changes hands -/

theorem ProcState.Schedulable.used {st : ProcState} (h : st.Schedulable) : st ≠ .unused := by
  rcases h with rfl | rfl | rfl <;> decide

theorem ProcState.Schedulable.not_zombie {st : ProcState} (h : st.Schedulable) : st ≠ .zombie := by
  rcases h with rfl | rfl | rfl <;> decide

theorem Kernel.used_of_schedulable (s : Kernel) (q : Slot) (h : s.Schedulable q) : s.Used q := h.used

theorem Kernel.used_of_zombie (s : Kernel) (q : Slot) (h : (s.proc q).state = .zombie) : s.Used q := by
  unfold Used
  rw [h]
  decide

theorem Kernel.not_zombie_of_schedulable (s : Kernel) (q : Slot) (h : s.Schedulable q) :
    (s.proc q).state ≠ .zombie := h.not_zombie

theorem Kernel.schedulable_of_running {s : Kernel} {c : Slot} (h : (s.proc c).state = .running) : s.Schedulable c :=
  .inr (.inr h)

/-- Between states in which a process can be scheduled, or none at all. -/
def ProcState.Like (a b : ProcState) : Prop := b = a ∨ (a.Schedulable ∧ b.Schedulable)

/-- `y` is `x` but for what the scheduler, signals, sizes and shares change. -/
structure Proc.Like (x y : Proc) : Prop where
  state : x.state.Like y.state
  pgdir : y.pgdir = x.pgdir
  kstack : y.kstack = x.kstack
  pid : y.pid = x.pid
  parent : y.parent = x.parent
  tid : y.tid = x.tid
  isThread : y.isThread = x.isThread
  isMainThread : y.isMainThread = x.isMainThread
  usz : y.usz = x.usz

/-- No slot changes hands from `s` to `t`. -/
structure Kernel.Like (s t : Kernel) : Prop where
  proc : ∀ q, (s.proc q).Like (t.proc q)
  ttable : t.ttable = s.ttable
  nextpid : t.nextpid = s.nextpid
  initproc : t.initproc = s.initproc
  live : t.live = s.live
  reaps : t.reaps = s.reaps
  freevms : t.freevms = s.freevms
  refunds : t.refunds = s.refunds
  area : t.area = s.area

section Like

theorem ProcState.Like.trans {a b c : ProcState} (h : a.Like b) (h' : b.Like c) : a.Like c := by
  rcases h with rfl | ⟨ha, hb⟩
  · exact h'
  · rcases h' with rfl | ⟨-, hc⟩
    · exact .inr ⟨ha, hb⟩
    · exact .inr ⟨ha, hc⟩

theorem ProcState.Like.used {a b : ProcState} (h : a.Like b) : b ≠ .unused ↔ a ≠ .unused := by
  rcases h with rfl | ⟨ha, hb⟩
  · exact Iff.rfl
  · rcases ha with rfl | rfl | rfl <;> rcases hb with rfl | rfl | rfl <;> simp

theorem ProcState.Like.schedulable {a b : ProcState} (h : a.Like b) : b.Schedulable ↔ a.Schedulable := by
  rcases h with rfl | ⟨ha, hb⟩
  · exact Iff.rfl
  · exact iff_of_true hb ha

theorem ProcState.Like.zombie {a b : ProcState} (h : a.Like b) : b = .zombie ↔ a = .zombie := by
  rcases h with rfl | ⟨ha, hb⟩
  · exact Iff.rfl
  · rcases ha with rfl | rfl | rfl <;> rcases hb with rfl | rfl | rfl <;> simp

theorem Woken.like {a b : ProcState} (h : Woken a b) : a.Like b := by
  rcases h with rfl | ⟨rfl, rfl⟩
  · exact .inl rfl
  · exact .inr ⟨.inl rfl, .inr (.inl rfl)⟩

theorem Proc.Like.refl (x : Proc) : x.Like x := ⟨.inl rfl, rfl, rfl, rfl, rfl, rfl, rfl, rfl, rfl⟩

theorem Proc.Like.trans {x y z : Proc} (h : x.Like y) (h' : y.Like z) : x.Like z :=
  ⟨h.state.trans h'.state, h'.pgdir.trans h.pgdir, h'.kstack.trans h.kstack, h'.pid.trans h.pid,
    h'.parent.trans h.parent, h'.tid.trans h.tid, h'.isThread.trans h.isThread,
    h'.isMainThread.trans h.isMainThread, h'.usz.trans h.usz⟩

namespace Kernel.Like

variable {s t u : Kernel}

theorem refl (s : Kernel) : s.Like s := ⟨fun _ => .refl _, rfl, rfl, rfl, rfl, rfl, rfl, rfl, rfl⟩

theorem trans (h : s.Like t) (h' : t.Like u) : s.Like u :=
  ⟨fun q => (h.proc q).trans (h'.proc q), h'.ttable.trans h.ttable, h'.nextpid.trans h.nextpid,
    h'.initproc.trans h.initproc, h'.live.trans h.live, h'.reaps.trans h.reaps, h'.freevms.trans h.freevms,
    h'.refunds.trans h.refunds, h'.area.trans h.area⟩

theorem used (h : s.Like t) (q : Slot) : t.Used q ↔ s.Used q := (h.proc q).state.used

theorem schedulable (h : s.Like t) (q : Slot) : t.Schedulable q ↔ s.Schedulable q := (h.proc q).state.schedulable

theorem of_proc {f : Files} {a b d : ℚ} {ds : List ℚ} {top : Page → Nat}
    (h : t = { s with files := f, leftShare := a, mlfqStrideVal := b, mlfqPassVal := d, divisors := ds, top := top }) :
    s.Like t := by
  subst h
  exact ⟨fun _ => .refl _, rfl, rfl, rfl, rfl, rfl, rfl, rfl, rfl⟩

/-- A change of each slot that keeps what counts. -/
theorem of_sweep {f : Slot → Proc → Proc} (h : ∀ q, (s.proc q).Like (f q (s.proc q))) : s.Like (s.sweep f) :=
  ⟨h, rfl, rfl, rfl, rfl, rfl, rfl, rfl, rfl⟩

theorem of_upd {p : Slot} {f : Proc → Proc} (h : (s.proc p).Like (f (s.proc p))) : s.Like (s.upd p f) := by
  refine of_sweep fun q => ?_
  split
  · next hq => exact hq ▸ h
  · exact .refl _

end Kernel.Like

variable {s : Kernel} {c p : Slot}

theorem Kernel.like_skipped : s.Like (s.skipped p) :=
  .of_upd ⟨.inl rfl, rfl, rfl, rfl, rfl, rfl, rfl, rfl, rfl⟩

theorem Kernel.like_dozing (h : (s.proc c).state = .running) : s.Like (s.dozing c) :=
  .of_upd ⟨.inr ⟨.inr (.inr h), .inl rfl⟩, rfl, rfl, rfl, rfl, rfl, rfl, rfl, rfl⟩

theorem Kernel.like_joining {thread : Int} (h : (s.proc c).state = .running) : s.Like (s.joining c p thread) :=
  .of_upd ⟨.inr ⟨.inr (.inr h), .inl rfl⟩, rfl, rfl, rfl, rfl, rfl, rfl, rfl, rfl⟩

end Like

/-! ## Nothing happens to CPU shares -/

/-- `y` has the share of `x`. -/
structure Proc.Even (x y : Proc) : Prop where
  isMLFQ : y.isMLFQ = x.isMLFQ
  share : y.share = x.share
  stride : y.stride = x.stride
  cntThread : y.cntThread = x.cntThread
  totalshare : y.totalshare = x.totalshare

/-- From `s` to `t` shares stay as they are. -/
structure Kernel.Even (s t : Kernel) : Prop where
  proc : ∀ q, (s.proc q).Even (t.proc q)
  leftShare : t.leftShare = s.leftShare
  mlfqStrideVal : t.mlfqStrideVal = s.mlfqStrideVal
  divisors : t.divisors = s.divisors

section Even

variable {s t u : Kernel} {c p : Slot}

theorem Proc.Even.refl (x : Proc) : x.Even x := ⟨rfl, rfl, rfl, rfl, rfl⟩

theorem Proc.Even.trans {x y z : Proc} (h : x.Even y) (h' : y.Even z) : x.Even z :=
  ⟨h'.isMLFQ.trans h.isMLFQ, h'.share.trans h.share, h'.stride.trans h.stride, h'.cntThread.trans h.cntThread,
    h'.totalshare.trans h.totalshare⟩

namespace Kernel.Even

theorem refl (s : Kernel) : s.Even s := ⟨fun _ => .refl _, rfl, rfl, rfl⟩

theorem trans (h : s.Even t) (h' : t.Even u) : s.Even u :=
  ⟨fun q => (h.proc q).trans (h'.proc q), h'.leftShare.trans h.leftShare, h'.mlfqStrideVal.trans h.mlfqStrideVal,
    h'.divisors.trans h.divisors⟩

theorem of_sweep {f : Slot → Proc → Proc} (h : ∀ q, (s.proc q).Even (f q (s.proc q))) : s.Even (s.sweep f) :=
  ⟨h, rfl, rfl, rfl⟩

theorem of_upd {f : Proc → Proc} (h : (s.proc p).Even (f (s.proc p))) : s.Even (s.upd p f) := by
  refine of_sweep fun q => ?_
  split
  · next hq => exact hq ▸ h
  · exact .refl _

end Kernel.Even

theorem Kernel.even_skipped : s.Even (s.skipped p) := .of_upd ⟨rfl, rfl, rfl, rfl, rfl⟩

theorem Kernel.even_dozing : s.Even (s.dozing c) := .of_upd ⟨rfl, rfl, rfl, rfl, rfl⟩

theorem Kernel.even_joining {thread : Int} : s.Even (s.joining c p thread) := .of_upd ⟨rfl, rfl, rfl, rfl, rfl⟩

end Even

/-! ## Processes become zombies -/

/-- What the kernel keeps beside the slots is the same. -/
structure Kernel.SameRest (s t : Kernel) : Prop where
  ttable : t.ttable = s.ttable
  nextpid : t.nextpid = s.nextpid
  initproc : t.initproc = s.initproc
  live : t.live = s.live
  reaps : t.reaps = s.reaps
  freevms : t.freevms = s.freevms
  refunds : t.refunds = s.refunds
  area : t.area = s.area

theorem Kernel.Only.sameRest {s t : Kernel} (h : s.Only t) : s.SameRest t := by
  rw [h]
  exact ⟨rfl, rfl, rfl, rfl, rfl, rfl, rfl, rfl⟩

/-- `y` has the identity and the pages of `x`. -/
structure Proc.Same (x y : Proc) : Prop where
  pid : y.pid = x.pid
  pgdir : y.pgdir = x.pgdir
  kstack : y.kstack = x.kstack
  tid : y.tid = x.tid
  isThread : y.isThread = x.isThread
  isMainThread : y.isMainThread = x.isMainThread
  usz : y.usz = x.usz

/-- The processes in `Z` become zombies, and parents change. -/
structure Kernel.Retires (s t : Kernel) (Z : Slot → Prop) : Prop where
  same : ∀ q, (s.proc q).Same (t.proc q)
  schedulable : ∀ q, t.Schedulable q ↔ s.Schedulable q ∧ ¬ Z q
  used : ∀ q, t.Used q ↔ s.Used q ∨ Z q
  zombie : ∀ q, (t.proc q).state = .zombie ↔ (s.proc q).state = .zombie ∨ Z q
  rest : s.SameRest t

section Retires

variable {s t : Kernel} {c : Slot} {Z : Slot → Prop}

/-- It is enough to know what happens to the state of each slot. -/
theorem Kernel.Retires.of_moved
    (h : ∀ q, ∃ st r, t.proc q = (s.proc q).moved st r ∧ (Z q → st = .zombie) ∧ (¬ Z q → (s.proc q).state.Like st))
    (honly : s.Only t) : s.Retires t Z := by
  refine ⟨fun q => ?_, fun q => ?_, fun q => ?_, fun q => ?_, honly.sameRest⟩
  all_goals obtain ⟨st, r, hq, hz, hl⟩ := h q
  · rw [hq]
    exact ⟨rfl, rfl, rfl, rfl, rfl, rfl, rfl⟩
  all_goals
    simp only [Kernel.Schedulable, Kernel.Used, hq, Proc.moved_state]
    by_cases hZ : Z q
  · rw [hz hZ]
    exact iff_of_false (by decide) fun h => h.2 hZ
  · rw [(hl hZ).schedulable]
    exact ⟨fun h => ⟨h, hZ⟩, And.left⟩
  · rw [hz hZ]
    exact iff_of_true (by decide) (.inr hZ)
  · rw [(hl hZ).used]
    exact ⟨.inl, fun h => h.resolve_right hZ⟩
  · rw [hz hZ]
    exact iff_of_true rfl (.inr hZ)
  · rw [(hl hZ).zombie]
    exact ⟨.inl, fun h => h.resolve_right hZ⟩

theorem Kernel.Left.retires {G : Slot → Prop} (h : s.Left t c G) : s.Retires t G := by
  refine .of_moved (fun q => ?_) h.only
  obtain ⟨st, hq, hz, hw⟩ := h.proc q
  exact ⟨st, _, hq, hz, fun hG => (hw hG).like⟩

theorem Kernel.Zombified.retires (h : s.Zombified t c) :
    s.Retires t fun q => (s.proc q).pid = (s.proc c).pid ∧ q ≠ c := by
  refine .of_moved (fun q => ?_) h.only
  by_cases hq : (s.proc q).pid = (s.proc c).pid ∧ q ≠ c
  · obtain ⟨r, hr, -⟩ := (h.sibling q hq.1 hq.2).resolve_left fun h => nomatch h.1
    exact ⟨.zombie, r, hr, fun _ => rfl, fun h => absurd hq h⟩
  · exact ⟨_, _, h.other q hq, fun h => absurd h hq, fun _ => .inl rfl⟩

end Retires

/-! ## A slot is given up -/

/-- Slot `p` is free now; `live`, `ttable` and the histories are left open. -/
structure Kernel.Drops (s t : Kernel) (p : Slot) : Prop where
  other : ∀ q, q ≠ p → (s.proc q).Like (t.proc q)
  unused : ¬ t.Used p
  kstack : (t.proc p).kstack = none
  initproc : t.initproc = s.initproc

section Drops

variable {s : Kernel} {c p : Slot} {k : Page} {dir : Option Page}

theorem Kernel.drops_spoiled : s.Drops (s.spoiled p dir) p := by
  refine ⟨fun q hq => ?_, ?_, ?_, rfl⟩
  · rw [spoiled, upd_proc_ne _ _ hq, claimSlot_proc, if_neg hq]
    exact .refl _
  · unfold Used spoiled
    rw [upd_proc_same]
    simp
  · rw [spoiled, upd_proc_same]

theorem Proc.like_withShare (x : Proc) (m : Bool) (sh st pa : ℚ) (n : Int) : x.Like (x.withShare m sh st pa n) :=
  ⟨.inl rfl, rfl, rfl, rfl, rfl, rfl, rfl, rfl, rfl⟩

theorem Kernel.drops_threadDown {pass : ℚ} {f : Files} : s.Drops ((s.threaded c p k pass f).threadDown p) p := by
  refine ⟨fun q hq => ?_, ?_, ?_, ?_⟩
  · obtain ⟨m, sh, st, pa, n, h⟩ := s.threaded_proc_ne (c := c) k pass f hq
    rw [threadDown, upd_proc_ne _ _ hq, h]
    exact Proc.like_withShare _ _ _ _ _ _
  · unfold Used threadDown
    rw [upd_proc_same]
    simp
  · rw [threadDown, upd_proc_same]
  · unfold threadDown
    rw [upd_initproc, threaded_eq]
    rfl

theorem Kernel.drops_reaped : s.Drops (s.reaped p k) p := by
  refine ⟨fun q hq => ?_, ?_, ?_, rfl⟩
  · rw [reaped_proc_ne hq]
    exact .refl _
  · unfold Used
    rw [reaped_proc_same]
    simp
  · rw [reaped_proc_same]
    rfl

theorem Kernel.drops_buried : s.Drops (s.buried p k) p := by
  refine ⟨fun q hq => ?_, ?_, ?_, ?_⟩
  · rw [buried_proc_ne hq]
    exact .refl _
  · unfold Used
    rw [buried_proc_same]
    simp
  · rw [buried_proc_same]
    rfl
  · unfold buried reaped
    rw [refunded_eq]
    rfl

theorem Kernel.joined_proc_ne {q : Slot} (h : q ≠ p) :
    ∃ j, (s.joined c p k).proc q = { s.proc q with joining := j } := by
  unfold joined
  rw [upd_proc, reaped_proc_ne h, refunded_proc]
  split
  · exact ⟨_, rfl⟩
  · exact ⟨_, rfl⟩

theorem Kernel.joined_proc_same : ∃ j, (s.joined c p k).proc p = { (s.proc p).clear with joining := j } := by
  unfold joined
  rw [upd_proc, reaped_proc_same, refunded_proc]
  split
  · exact ⟨_, rfl⟩
  · exact ⟨_, rfl⟩

theorem Kernel.drops_joined : s.Drops (s.joined c p k) p := by
  obtain ⟨j, hj⟩ := s.joined_proc_same (c := c) (p := p) (k := k)
  refine ⟨fun q hq => ?_, ?_, ?_, ?_⟩
  · obtain ⟨j, hj⟩ := s.joined_proc_ne (c := c) (k := k) hq
    rw [hj]
    exact ⟨.inl rfl, rfl, rfl, rfl, rfl, rfl, rfl, rfl, rfl⟩
  · unfold Used
    rw [hj]
    simp
  · rw [hj]
    rfl
  · unfold joined reaped
    rw [refunded_eq]
    rfl

end Drops

/-! ## A process gets a new image -/

/-- `c` gets the page directory `dir`. Other slots keep what they have, but may stop
    being main threads. -/
structure Kernel.Reimages (s t : Kernel) (c : Slot) (dir : Page) : Prop where
  other : ∀ q, q ≠ c → ∃ main there, t.proc q = { s.proc q with isMainThread := main, isThereExec := there } ∧
    (main = true → (s.proc q).isMainThread = true)
  state : (t.proc c).state = (s.proc c).state
  pid : (t.proc c).pid = (s.proc c).pid
  kstack : (t.proc c).kstack = (s.proc c).kstack
  pgdir : (t.proc c).pgdir = some dir
  live : t.live = insert dir s.live
  nextpid : t.nextpid = s.nextpid
  ttable : t.ttable = s.ttable
  initproc : t.initproc = s.initproc
  reaps : t.reaps = s.reaps
  freevms : t.freevms = s.freevms
  refunds : t.refunds = s.refunds

namespace Kernel.Reimages

variable {s t : Kernel} {c : Slot} {dir : Page} (h : s.Reimages t c dir) (q : Slot)

include h

theorem state_eq : (t.proc q).state = (s.proc q).state := by
  by_cases hq : q = c
  · rw [hq, h.state]
  · obtain ⟨_, _, hq, -⟩ := h.other q hq
    rw [hq]

theorem pid_eq : (t.proc q).pid = (s.proc q).pid := by
  by_cases hq : q = c
  · rw [hq, h.pid]
  · obtain ⟨_, _, hq, -⟩ := h.other q hq
    rw [hq]

theorem kstack_eq : (t.proc q).kstack = (s.proc q).kstack := by
  by_cases hq : q = c
  · rw [hq, h.kstack]
  · obtain ⟨_, _, hq, -⟩ := h.other q hq
    rw [hq]

theorem schedulable : t.Schedulable q ↔ s.Schedulable q := by
  unfold Schedulable
  rw [h.state_eq]

theorem used : t.Used q ↔ s.Used q := by
  unfold Used
  rw [h.state_eq]

/-- A slot that only may have stopped being a main thread. -/
theorem ne (hq : q ≠ c) : (t.proc q).pgdir = (s.proc q).pgdir ∧ (t.proc q).tid = (s.proc q).tid ∧
    (t.proc q).isThread = (s.proc q).isThread ∧ (t.proc q).parent = (s.proc q).parent ∧
    (t.proc q).usz = (s.proc q).usz ∧
    ((t.proc q).isMainThread = true → (s.proc q).isMainThread = true) := by
  obtain ⟨_, _, hq, hm⟩ := h.other q hq
  rw [hq]
  exact ⟨rfl, rfl, rfl, rfl, rfl, hm⟩

end Kernel.Reimages

namespace Kernel

variable {s : Kernel} {c m q : Slot} {dir : Page} {usz n : Nat}

theorem imaged_proc_ne (h : q ≠ c) : (s.imaged c dir usz n).proc q = s.proc q := upd_proc_ne _ _ h

theorem imaged_proc_same : (s.imaged c dir usz n).proc c = (s.proc c).withImage dir usz := upd_proc_same _ _ _

theorem execed_proc_ne (h : q ≠ c) : (s.execed c dir usz).proc q = s.proc q := upd_proc_ne _ _ h

theorem execed_proc_same : (s.execed c dir usz).proc c = (s.proc c).execed dir usz := upd_proc_same _ _ _

theorem promoted_proc_ne (hc : q ≠ c) (hm : q ≠ m) : (s.promoted c m dir usz).proc q = s.proc q := by
  unfold promoted
  rw [upd_proc_ne _ _ hc, upd_proc_ne _ _ hm]
  rfl

theorem promoted_proc_main (h : m ≠ c) : (s.promoted c m dir usz).proc m = (s.proc m).deposed := by
  unfold promoted
  rw [upd_proc_ne _ _ h, upd_proc_same]
  rfl

theorem promoted_proc_same : ∃ b,
    (s.promoted c m dir usz).proc c = { (s.proc c).promoted dir usz (s.proc m).parent with isThereExec := b } := by
  unfold promoted
  rw [upd_proc_same, upd_proc]
  split
  · exact ⟨_, rfl⟩
  · exact ⟨_, rfl⟩

theorem reimages_imaged : s.Reimages (s.imaged c dir usz n) c dir := by
  refine ⟨fun q hq => ⟨_, _, imaged_proc_ne hq, id⟩, ?_, ?_, ?_, ?_, rfl, rfl, rfl, rfl, rfl, rfl, rfl⟩ <;>
  · rw [imaged_proc_same]
    rfl

theorem reimages_execed : s.Reimages (s.execed c dir usz) c dir := by
  refine ⟨fun q hq => ⟨_, _, execed_proc_ne hq, id⟩, ?_, ?_, ?_, ?_, rfl, rfl, rfl, rfl, rfl, rfl, rfl⟩ <;>
  · rw [execed_proc_same]
    rfl

theorem reimages_promoted : s.Reimages (s.promoted c m dir usz) c dir := by
  obtain ⟨b, hb⟩ := @promoted_proc_same s c m dir usz
  refine ⟨fun q hq => ?_, ?_, ?_, ?_, ?_, rfl, rfl, rfl, rfl, rfl, rfl, rfl⟩
  · by_cases hm : q = m
    · subst hm
      exact ⟨_, _, promoted_proc_main hq, fun h => nomatch h⟩
    · exact ⟨_, _, promoted_proc_ne hq hm, id⟩
  all_goals
    rw [hb]
    rfl

end Kernel

/-! ## A slot is taken -/

/-- A process or thread that `c` has just created. -/
structure Proc.Born (x : Proc) (pid : Int) (dir : Option Page) (k : Page) (tid : Tid) (thread : Bool) (c : Slot)
    (usz : Nat) : Prop where
  state : x.state = .runnable
  pid : x.pid = pid
  pgdir : x.pgdir = dir
  kstack : x.kstack = some k
  tid : x.tid = tid
  isThread : x.isThread = thread
  isMainThread : x.isMainThread = !thread
  parent : x.parent = some c
  usz : x.usz = usz

/-- From `s` to `t` a slot, a pid and a thread id have been taken, for good or not. -/
structure Kernel.Claims (s t : Kernel) : Prop where
  nextpid : t.nextpid = wrap (s.nextpid + 1)
  ttable : t.ttable = match s.freeTid with
    | none => s.ttable
    | some i => Function.update s.ttable i true
  initproc : t.initproc = s.initproc
  reaps : t.reaps = s.reaps
  freevms : t.freevms = s.freevms
  refunds : t.refunds = s.refunds

theorem Kernel.Claims.nextpid_eq {s t : Kernel} (h : s.Claims t) (hpos : 0 < s.nextpid)
    (hlt : s.nextpid < 2 ^ 31 - 1) : t.nextpid = s.nextpid + 1 := by
  rw [h.nextpid, wrap_of_range] <;> omega

namespace Kernel

variable {s : Kernel} {c p q : Slot} {k d : Page} {dir : Option Page} {pass : ℚ} {f : Files}

theorem claims_spoiled : s.Claims (s.spoiled p dir) := ⟨rfl, rfl, rfl, rfl, rfl, rfl⟩

theorem claims_forked : s.Claims (s.forked c p k d f) := ⟨rfl, rfl, rfl, rfl, rfl, rfl⟩

theorem claims_threaded : s.Claims (s.threaded c p k pass f) := by
  rw [threaded_eq]
  exact ⟨rfl, rfl, rfl, rfl, rfl, rfl⟩

theorem claims_threadDown : s.Claims ((s.threaded c p k pass f).threadDown p) := by
  obtain ⟨h₁, h₂, h₃, h₄, h₅, h₆⟩ := @claims_threaded s c p k pass f
  exact ⟨h₁, h₂, h₃, h₄, h₅, h₆⟩

theorem claims_threadUp {usz sz : Nat} : s.Claims ((s.threaded c p k pass f).threadUp p usz sz) := by
  obtain ⟨h₁, h₂, h₃, h₄, h₅, h₆⟩ := @claims_threaded s c p k pass f
  exact ⟨h₁, h₂, h₃, h₄, h₅, h₆⟩

theorem forked_live : (s.forked c p k d f).live = insert d (insert k s.live) := rfl

theorem threaded_live : (s.threaded c p k pass f).live = insert k s.live := by
  rw [threaded_eq]
  rfl

theorem threaded_area : (s.threaded c p k pass f).area = s.area := by
  rw [threaded_eq]
  rfl

theorem spoiled_tid : ((s.spoiled p dir).proc p).tid = s.freeTid.getD 0 := by
  unfold spoiled
  rw [upd_proc_same, claimSlot_proc, if_pos rfl]
  rfl

theorem forked_proc_ne (h : q ≠ p) : (s.forked c p k d f).proc q = s.proc q := by
  unfold forked
  rw [upd_proc_ne _ _ h, setFiles_proc, upd_proc_ne _ _ h]
  exact s.alloced_proc_ne k h

theorem forked_born :
    ((s.forked c p k d f).proc p).Born s.nextpid (some d) k (s.freeTid.getD 0) false c (s.proc c).usz := by
  have hproc : ((((s.alloced p k).addPage d).setTop d (PGROUNDUP (s.proc c).sz)).setArea d
      ((s.proc c).pgdir.bind s.area)).proc p =
      { (s.proc p).embryo s.nextpid (s.freeTid.getD 0) with kstack := some k } := s.alloced_proc_same k
  unfold forked
  rw [upd_proc_same, setFiles_proc, upd_proc_same, hproc]
  exact ⟨rfl, rfl, rfl, rfl, rfl, rfl, rfl, rfl, rfl⟩

theorem threadUp_like {usz sz : Nat} (h : q ≠ p) :
    (s.proc q).Like (((s.threaded c p k pass f).threadUp p usz sz).proc q) := by
  obtain ⟨m, sh, st, pa, n, hq⟩ := s.threaded_proc_ne (c := c) k pass f h
  unfold threadUp
  rw [upd_proc_ne _ _ h, upd_proc_ne _ _ h, hq]
  exact Proc.like_withShare _ _ _ _ _ _

theorem threadUp_born {usz sz : Nat} (h : c ≠ p) : (((s.threaded c p k pass f).threadUp p usz sz).proc p).Born
    (s.proc c).pid (s.proc c).pgdir k (s.freeTid.getD 0) true c usz := by
  obtain ⟨m, sh, st, pa, hp⟩ := s.threaded_proc_same k pass f h
  unfold threadUp
  rw [upd_proc_same, upd_proc_same, hp]
  exact ⟨rfl, rfl, rfl, rfl, rfl, rfl, rfl, rfl, rfl⟩

theorem threadDown_tid (h : c ≠ p) :
    (((s.threaded c p k pass f).threadDown p).proc p).tid = s.freeTid.getD 0 := by
  obtain ⟨m, sh, st, pa, hp⟩ := s.threaded_proc_same k pass f h
  unfold threadDown
  rw [upd_proc_same, hp]
  rfl

/-- The slot that a failed `thread_create` leaves behind. -/
theorem threadDown_proc_same (h : c ≠ p) : (((s.threaded c p k pass f).threadDown p).proc p).pid = (s.proc c).pid ∧
    (((s.threaded c p k pass f).threadDown p).proc p).isMainThread = false := by
  obtain ⟨m, sh, st, pa, hp⟩ := s.threaded_proc_same k pass f h
  unfold threadDown
  rw [upd_proc_same, hp]
  exact ⟨rfl, rfl⟩

end Kernel

/-! ## Steps that leave shares as they are -/

namespace Kernel

variable {s t : Kernel} {c m : Slot} {dir : Page} {usz n : Nat}

theorem Even.of_moved (h : ∀ q, ∃ st r, t.proc q = (s.proc q).moved st r) (honly : s.Only t) : s.Even t := by
  refine ⟨fun q => ?_, ?_, ?_, ?_⟩
  · obtain ⟨st, r, hq⟩ := h q
    rw [hq]
    exact ⟨rfl, rfl, rfl, rfl, rfl⟩
  all_goals
    rw [honly]

theorem Left.even {G : Slot → Prop} (h : s.Left t c G) : s.Even t := by
  refine .of_moved (fun q => ?_) h.only
  obtain ⟨st, hq, -⟩ := h.proc q
  exact ⟨st, _, hq⟩

theorem Zombified.even (h : s.Zombified t c) : s.Even t := by
  refine .of_moved (fun q => ?_) h.only
  obtain ⟨st, r, hq, -⟩ := h.moved q
  exact ⟨st, r, hq⟩

theorem even_imaged : s.Even (s.imaged c dir usz n) :=
  (⟨fun _ => .refl _, rfl, rfl, rfl⟩ : s.Even (s.mapImage dir usz n)).trans (.of_upd ⟨rfl, rfl, rfl, rfl, rfl⟩)

theorem even_execed : s.Even (s.execed c dir usz) :=
  (⟨fun _ => .refl _, rfl, rfl, rfl⟩ : s.Even (s.mapImage dir usz NPROC)).trans (.of_upd ⟨rfl, rfl, rfl, rfl, rfl⟩)

theorem even_promoted : s.Even (s.promoted c m dir usz) :=
  ((⟨fun _ => .refl _, rfl, rfl, rfl⟩ : s.Even (s.mapImage dir usz NPROC)).trans
    (.of_upd ⟨rfl, rfl, rfl, rfl, rfl⟩)).trans (.of_upd ⟨rfl, rfl, rfl, rfl, rfl⟩)

theorem even_freeDir {old : Page} : s.Even (s.freeDir c old) := ⟨fun _ => .refl _, rfl, rfl, rfl⟩

end Kernel

end Xv6
