-- SUMMARY: Thread ids: who has which, and which are taken.
import Xv6.Base.IdPool
import Xv6.Process.Runs

/-! # Thread ids

`allocproc` takes a thread id for every process and thread, and reaping frees the id
that is stored in the slot. But `exec` sets the id of a process to 0 without taking
0 or freeing the old id, and calls that fail after `allocproc` do not free theirs.
-/

namespace Xv6

open Prog

/-- The ids taken are those of the slots in use. Free slots have no kernel stack and no
    pid, so that they are nobody's threads. -/
structure Kernel.TidInv (s : Kernel) : Prop where
  pool : IdPool s.Used (fun q => (s.proc q).tid) s.ttable
  nextpid_pos : 0 < s.nextpid
  pid_pos : ∀ q, s.Used q → 0 < (s.proc q).pid
  pid_unused : ∀ q, ¬ s.Used q → (s.proc q).pid = 0
  stack_used : ∀ q, ¬ s.Used q → (s.proc q).kstack = none

namespace Kernel.TidInv

variable {s t : Kernel} {c p : Slot}

theorem like (h : s.TidInv) (hl : s.Like t) : t.TidInv where
  pool := hl.ttable ▸ h.pool.congr hl.used fun q _ => (hl.proc q).tid
  nextpid_pos := hl.nextpid ▸ h.nextpid_pos
  pid_pos q hq := by
    rw [(hl.proc q).pid]
    exact h.pid_pos q ((hl.used q).mp hq)
  pid_unused q hq := by
    rw [(hl.proc q).pid]
    exact h.pid_unused q fun hu => hq ((hl.used q).mpr hu)
  stack_used q hq := by
    rw [(hl.proc q).kstack]
    exact h.stack_used q fun hu => hq ((hl.used q).mpr hu)

theorem retire (h : s.TidInv) {Z : Slot → Prop} (hr : s.Retires t Z) (hZ : ∀ q, Z q → s.Used q) : t.TidInv := by
  have hused : ∀ q, t.Used q ↔ s.Used q := fun q => by
    rw [hr.used]
    exact ⟨fun h => h.elim id (hZ q), .inl⟩
  refine ⟨?_, hr.rest.nextpid ▸ h.nextpid_pos, fun q hq => ?_, fun q hq => ?_, fun q hq => ?_⟩
  · rw [hr.rest.ttable]
    exact h.pool.congr hused fun q _ => (hr.same q).tid
  · rw [(hr.same q).pid]
    exact h.pid_pos q ((hused q).mp hq)
  · rw [(hr.same q).pid]
    exact h.pid_unused q fun hu => hq ((hused q).mpr hu)
  · rw [(hr.same q).kstack]
    exact h.stack_used q fun hu => hq ((hused q).mpr hu)

/-- Who gets a new image keeps its id. -/
theorem image (h : s.TidInv) {dir : Page} (hr : s.Reimages t c dir) (hc : (t.proc c).tid = (s.proc c).tid) :
    t.TidInv := by
  refine ⟨?_, hr.nextpid ▸ h.nextpid_pos, fun q hq => ?_, fun q hq => ?_, fun q hq => ?_⟩
  · rw [hr.ttable]
    refine h.pool.congr hr.used fun q _ => ?_
    by_cases hq : q = c
    · rw [hq, hc]
    · exact (hr.ne q hq).2.1
  · rw [hr.pid_eq]
    exact h.pid_pos q ((hr.used q).mp hq)
  · rw [hr.pid_eq]
    exact h.pid_unused q fun hu => hq ((hr.used q).mpr hu)
  · rw [hr.kstack_eq]
    exact h.stack_used q fun hu => hq ((hr.used q).mpr hu)

/-- A slot in use is given up, with its id. -/
theorem drop (h : s.TidInv) (hd : s.Drops t p) (hp : s.Used p) (hpid : (t.proc p).pid = 0)
    (hnext : t.nextpid = s.nextpid) (htable : t.ttable = Function.update s.ttable (s.proc p).tid false) :
    t.TidInv := by
  refine ⟨?_, hnext ▸ h.nextpid_pos, fun q hq => ?_, fun q hq => ?_, fun q hq => ?_⟩
  · rw [htable]
    exact h.pool.release hp hd.unused (fun q hq => (hd.other q hq).state.used) fun q hq => (hd.other q hq).tid
  · have hqp : q ≠ p := by
      rintro rfl
      exact hd.unused hq
    rw [(hd.other q hqp).pid]
    exact h.pid_pos q ((hd.other q hqp).state.used.mp hq)
  · by_cases hqp : q = p
    · rw [hqp, hpid]
    · rw [(hd.other q hqp).pid]
      exact h.pid_unused q fun hu => hq ((hd.other q hqp).state.used.mpr hu)
  · by_cases hqp : q = p
    · rw [hqp, hd.kstack]
    · rw [(hd.other q hqp).kstack]
      exact h.stack_used q fun hu => hq ((hd.other q hqp).state.used.mpr hu)

/-- As long as there is a free slot there is a free id. -/
theorem exists_freeTid (h : s.TidInv) (hp : s.freeSlot = some p) : ∃ i, s.freeTid = some i ∧ s.ttable i = false := by
  obtain ⟨a, ha⟩ := h.pool.exists_free le_rfl (p := p) fun hu => hu (s.freeSlot_unused hp)
  have hsome : s.freeTid.isSome := by
    unfold freeTid
    rw [List.find?_isSome]
    exact ⟨a, mem_slots a, by simp [ha]⟩
  obtain ⟨i, hi⟩ := Option.isSome_iff_exists.mp hsome
  refine ⟨i, hi, ?_⟩
  simpa using List.find?_some hi

theorem born (h : s.TidInv) {pid : Int} {dir : Option Page} {k : Page} {thread : Bool} {usz : Nat}
    (hp : s.freeSlot = some p) (hother : ∀ q, q ≠ p → (s.proc q).Like (t.proc q))
    (hb : (t.proc p).Born pid dir k (s.freeTid.getD 0) thread c usz) (hpos : 0 < pid) (hclaims : s.Claims t)
    (hnext : 0 < t.nextpid) : t.TidInv := by
  obtain ⟨i, hi, hfree⟩ := h.exists_freeTid hp
  have hnew : t.Used p := by
    unfold Used
    rw [hb.state]
    decide
  have hne : ∀ {q}, ¬ t.Used q → q ≠ p := by
    rintro q hq rfl
    exact hq hnew
  refine ⟨?_, hnext, fun q hq => ?_, fun q hq => ?_, fun q hq => ?_⟩
  · have htable : t.ttable = Function.update s.ttable i true := by
      rw [hclaims.ttable, hi]
    have htid : (t.proc p).tid = i := by
      rw [hb.tid, hi]
      rfl
    rw [htable]
    exact h.pool.take hfree hnew htid (fun q hq => (hother q hq).state.used) (fun q hq => (hother q hq).tid)
      fun hu => hu (s.freeSlot_unused hp)
  · by_cases hqp : q = p
    · rw [hqp, hb.pid]
      exact hpos
    · rw [(hother q hqp).pid]
      exact h.pid_pos q ((hother q hqp).state.used.mp hq)
  · rw [(hother q (hne hq)).pid]
    exact h.pid_unused q fun hu => hq ((hother q (hne hq)).state.used.mpr hu)
  · rw [(hother q (hne hq)).kstack]
    exact h.stack_used q fun hu => hq ((hother q (hne hq)).state.used.mpr hu)

end Kernel.TidInv

/-! ## Runs -/

/-- The first frame of a thread that `c` creates now can be pushed. -/
def Kernel.canStart (s : Kernel) (c : Slot) : Bool :=
  s.canPush (s.proc c).pgdir ((s.stackTop c (s.freeTid.getD 0) + (2 ^ 32 - 8)) % 2 ^ 32)

/-- Who calls `exec` without being a thread has id 0 already; `fork` and
    `thread_create` do not fail after they have taken an id; pids do not run out. -/
def TidOk (s : Kernel) (c : Slot) : SysCall → Prop
  | .fork stack dir => s.nextpid < 2 ^ 31 - 1 ∧ (s.freeSlot ≠ none → stack ≠ none ∧ dir ≠ none)
  | .threadCreate stack _ => s.nextpid < 2 ^ 31 - 1 ∧
    (s.freeSlot ≠ none → (s.proc c).isThread = false → stack ≠ none ∧ s.canStart c = true)
  | .exec (.ok _ _) => (s.proc c).isThread = false → (s.proc c).tid = 0
  | _ => True

instance (s : Kernel) (c : Slot) : (call : SysCall) → Decidable (TidOk s c call)
  | .fork stack dir =>
    inferInstanceAs (Decidable (s.nextpid < 2 ^ 31 - 1 ∧ (s.freeSlot ≠ none → stack ≠ none ∧ dir ≠ none)))
  | .threadCreate stack _ =>
    inferInstanceAs (Decidable (s.nextpid < 2 ^ 31 - 1 ∧
      (s.freeSlot ≠ none → (s.proc c).isThread = false → stack ≠ none ∧ s.canStart c = true)))
  | .exec (.ok _ _) => inferInstanceAs (Decidable ((s.proc c).isThread = false → (s.proc c).tid = 0))
  | .exec .bad | .exec (.short _ _ _) | .threadExit _ | .exit | .wait | .threadJoin _ | .kill _ | .sbrk _ _
  | .setCpuShare _ | .file _ => .isTrue trivial

/-- Free slots have no pid, so all with the pid of `c` are in use. -/
theorem Kernel.TidInv.used_of_pid {s : Kernel} {c q : Slot} (h : s.TidInv) (hc : s.Used c)
    (hpid : (s.proc q).pid = (s.proc c).pid) : s.Used q := by
  by_contra hu
  have hpos := h.pid_pos c hc
  rw [← hpid, h.pid_unused q hu] at hpos
  exact lt_irrefl _ hpos

theorem Kernel.TidInv.exec {s t u : Kernel} {c : Slot} {dir old : Page} (h : s.TidInv) (hc : s.Used c)
    (hr : s.Reimages t c dir) (htid : (t.proc c).tid = (s.proc c).tid) (hz : t.Zombified u c) :
    (u.freeDir c old).TidInv := by
  have ht := h.image hr htid
  obtain ⟨h₁, h₂, h₃, h₄, h₅⟩ := ht.retire hz.retires fun q hq => ht.used_of_pid ((hr.used c).mpr hc) hq.1
  exact ⟨h₁, h₂, h₃, h₄, h₅⟩

theorem keeps_tidInv : Keeps TidOk Kernel.TidInv where
  like h hl _ := h.like hl
  setCpuShare h _ _ _ := wp_setCpuShare_like.mono (fun _ _ hl => h.like hl) fun _ _ => trivial
  forkSpoiled h _ hp hok hno := by
    have hboth := hok.2 (by rw [hp]; exact Option.some_ne_none _)
    exact absurd hno (not_or.mpr hboth)
  createSpoiled h _ hnot hp hok := by
    have hboth := hok.2 (by rw [hp]; exact Option.some_ne_none _) hnot
    exact absurd rfl hboth.1
  forked {s c p k d f} h _ hp _ _ _ hok := by
    have hnext := (@Kernel.claims_forked s c p k d f).nextpid_eq h.nextpid_pos hok.1
    have hpos := h.nextpid_pos
    refine h.born hp (fun q hq => ?_) Kernel.forked_born hpos Kernel.claims_forked (by omega)
    rw [Kernel.forked_proc_ne hq]
    exact .refl _
  threadUp {s c p k junk pass f} h hc _ hp _ hok := by
    have hc := Kernel.used_of_running hc
    have hpos := h.nextpid_pos
    refine h.born hp (fun q hq => Kernel.threadUp_like hq) (Kernel.threadUp_born (Kernel.ne_freeSlot hc hp))
      (h.pid_pos c hc) Kernel.claims_threadUp ?_
    rw [Kernel.claims_threadUp.nextpid_eq hpos hok.1]
    omega
  threadDown h _ hnot hp _ hpush hok := by
    have hcan := (hok.2 (by rw [hp]; exact Option.some_ne_none _) hnot).2
    unfold Kernel.canStart at hcan
    rw [hpush] at hcan
    cases hcan
  exited h hc _ _ ht := h.retire ht.retires fun q hq => h.used_of_pid (Kernel.used_of_running hc) hq
  threadExited {s t c v} h hc _ _ ht := by
    have hlike : s.Like (s.upd c fun x => { x with retval := v }) :=
      .of_upd ⟨.inl rfl, rfl, rfl, rfl, rfl, rfl, rfl, rfl, rfl⟩
    refine (h.like hlike).retire ht.retires fun q hq => ?_
    rw [hlike.used]
    exact hq ▸ Kernel.used_of_running hc
  imaged h _ _ _ _ := h.image Kernel.reimages_imaged (by rw [Kernel.imaged_proc_same]; rfl)
  execed h hc hnot _ _ hok hz := by
    refine h.exec (Kernel.used_of_running hc) Kernel.reimages_execed ?_ hz
    rw [Kernel.execed_proc_same]
    exact (hok hnot).symm
  promoted {s t c m dir old usz} h hc _ _ _ _ _ hz := by
    obtain ⟨b, hb⟩ := @Kernel.promoted_proc_same s c m dir usz
    refine h.exec (Kernel.used_of_running hc) Kernel.reimages_promoted ?_ hz
    rw [hb]
    rfl
  reaped {s p k} h hz _ _ := by
    refine h.drop Kernel.drops_reaped (s.used_of_zombie p hz) ?_ rfl rfl
    rw [Kernel.reaped_proc_same]
    rfl
  buried {s p k d} h hz _ _ _ := by
    have hrest : (s.buried p k).nextpid = s.nextpid ∧
        (s.buried p k).ttable = Function.update s.ttable (s.proc p).tid false := by
      unfold Kernel.buried Kernel.reaped
      rw [Kernel.refunded_eq]
      exact ⟨rfl, by rw [Kernel.upd_proc_same]; rfl⟩
    have hdrop : (s.buried p k).TidInv := by
      refine h.drop Kernel.drops_buried (s.used_of_zombie p hz) ?_ hrest.1 hrest.2
      rw [Kernel.buried_proc_same]
      rfl
    obtain ⟨h₁, h₂, h₃, h₄, h₅⟩ := hdrop
    exact ⟨h₁, h₂, h₃, h₄, h₅⟩
  joined {s c p k thread t} h hc ht hp hk hok := by
    obtain ⟨j, hj⟩ := @Kernel.joined_proc_same s c p k
    have hrest : (s.joined c p k).nextpid = s.nextpid ∧
        (s.joined c p k).ttable = Function.update s.ttable (s.proc p).tid false := by
      unfold Kernel.joined Kernel.reaped
      rw [Kernel.refunded_eq]
      exact ⟨rfl, rfl⟩
    have hp : s.Used p := by
      by_contra hu
      rw [h.stack_used p hu] at hk
      cases hk
    refine h.drop Kernel.drops_joined hp ?_ hrest.1 hrest.2
    rw [hj]
    rfl

theorem boot_tidInv {k d : Page} {root : InodePtr} : (boot k d root).TidInv := by
  have hzero : ∀ q, ¬ (boot k d root).Used q → q ≠ 0 := by
    rintro q hq rfl
    exact hq boot_used_zero
  refine ⟨⟨fun p q hp hq _ => ?_, fun i => ?_⟩, by rw [boot_nextpid]; decide, fun q hq => ?_,
    fun q hq => ?_, fun q hq => ?_⟩
  · rw [eq_zero_of_boot_used hp, eq_zero_of_boot_used hq]
  · rw [boot_ttable]
    constructor
    · intro hi
      refine ⟨0, boot_used_zero, ?_⟩
      change (0 : Tid) = i
      by_contra hne
      rw [Function.update_of_ne (Ne.symm hne)] at hi
      cases hi
    · rintro ⟨q, hq, rfl⟩
      rw [eq_zero_of_boot_used hq]
      rfl
  · rw [eq_zero_of_boot_used hq]
    exact Int.one_pos
  · rw [boot_proc_ne (hzero q hq)]
    rfl
  · rw [boot_proc_ne (hzero q hq)]
    rfl

/-- In every run that meets the condition, no two slots in use have the same thread id,
    the ids taken are those of the slots in use, so there are as many, and who finds a
    free slot finds a free id. -/
theorem tids_exact {k d : Page} {root : InodePtr} {s : Kernel} (h : Run TidOk (boot k d root) s) :
    (∀ p q, s.Used p → s.Used q → (s.proc p).tid = (s.proc q).tid → p = q) ∧
      (∀ i, s.ttable i = true ↔ ∃ q, s.Used q ∧ (s.proc q).tid = i) ∧
      (Finset.univ.filter fun i => s.ttable i = true).card = (Finset.univ.filter s.Used).card ∧
      (s.freeSlot ≠ none → s.freeTid ≠ none) := by
  have hinv := keeps_tidInv.run h boot_tidInv
  refine ⟨hinv.pool.inj, hinv.pool.taken_iff, hinv.pool.card_eq, fun hslot => ?_⟩
  obtain ⟨p, hp⟩ := Option.ne_none_iff_exists'.mp hslot
  obtain ⟨i, hi, -⟩ := hinv.exists_freeTid hp
  rw [hi]
  exact Option.some_ne_none i

/-- `init` loads a program and creates two threads; one is joined, a process is forked
    and reaped. -/
def initThreads : List (Slot × SysCall) :=
  [(0, .exec (.ok 2 8192)), (0, .threadCreate (some 3) 0), (0, .threadCreate (some 4) 0), (1, .threadExit 7),
    (0, .threadJoin 1), (0, .fork (some 5) (some 6)), (1, .exit), (0, .wait)]

theorem tids_exact_initThreads : ∃ s, Run TidOk (boot 0 1 0) s ∧ s.Used 2 ∧
    (∀ p q, s.Used p → s.Used q → (s.proc p).tid = (s.proc q).tid → p = q) ∧
      (∀ i, s.ttable i = true ↔ ∃ q, s.Used q ∧ (s.proc q).tid = i) ∧
      (Finset.univ.filter fun i => s.ttable i = true).card = (Finset.univ.filter s.Used).card ∧
      (s.freeSlot ≠ none → s.freeTid ≠ none) := by
  have hplay : (play TidOk initThreads (boot 0 1 0)).any (fun s => s.Used 2) = true := by decide +kernel
  obtain ⟨s, hrun, hs⟩ := Run.exists_of_play hplay
  exact ⟨s, hrun, of_decide_eq_true hs, tids_exact hrun⟩

/-- Two processes load programs, and one is reaped, which frees id 0. -/
def twoExecs : List (Slot × SysCall) :=
  [(0, .fork (some 2) (some 3)), (0, .fork (some 4) (some 5)), (1, .exec (.ok 6 8192)), (2, .exec (.ok 7 8192)),
    (1, .exit), (0, .wait), (2, .threadCreate (some 8) 0)]

/-- A thread of the other process gets the id of its main thread, and id 1 stays taken
    though nobody has it. -/
theorem tid_shared : ∃ s, Run (fun _ _ _ => True) (boot 0 1 0) s ∧ s.Used 1 ∧ s.Used 2 ∧
    (s.proc 1).pid = (s.proc 2).pid ∧ (s.proc 1).tid = (s.proc 2).tid ∧
    s.ttable 1 = true ∧ ∀ q, s.Used q → (s.proc q).tid ≠ 1 := by
  have hplay : (play (fun _ _ _ => True) twoExecs (boot 0 1 0)).any (fun s => s.Used 1 ∧ s.Used 2 ∧
      (s.proc 1).pid = (s.proc 2).pid ∧ (s.proc 1).tid = (s.proc 2).tid ∧ s.ttable 1 = true ∧
      ∀ q, s.Used q → (s.proc q).tid ≠ 1) = true := by
    decide +kernel
  obtain ⟨s, hrun, hs⟩ := Run.exists_of_play hplay
  exact ⟨s, hrun, of_decide_eq_true hs⟩

end Xv6
