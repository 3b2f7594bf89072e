-- SUMMARY: What each call on processes leaves behind, and rules for it.
import Xv6.Process.Calls

/-! # Rules for calls on processes

One rule for each call. Where a call has one outcome the rule names the state after
it; where it goes over the table the state after it is described slot by slot.
-/

namespace Xv6

open Prog

/-! ## Creation -/

/-- What a change of shares leaves of a slot. -/
@[simps] def Proc.withShare (x : Proc) (mlfq : Bool) (share stride pass : ℚ) (n : Int) : Proc :=
  { x with isMLFQ := mlfq, share := share, stride := stride, pass := pass, cntThread := n }

namespace Kernel

variable (s : Kernel)

/-- The state after the lock has been released in `allocproc`. -/
@[simps] def claimSlot (p : Slot) : Kernel :=
  { s with
    proc := fun q => if q = p then (s.proc q).embryo s.nextpid (s.freeTid.getD 0) else s.proc q
    nextpid := wrap (s.nextpid + 1)
    ttable := match s.freeTid with
      | none => s.ttable
      | some t => Function.update s.ttable t true }

/-- A slot that was taken and given up again: `kalloc` or `copyuvm` has failed. The second
    has set `pgdir`. -/
def spoiled (p : Slot) (dir : Option Page) : Kernel :=
  (s.claimSlot p).upd p fun x => { x with pgdir := dir, kstack := none, state := .unused }

/-- A slot with its kernel stack. -/
def alloced (p : Slot) (k : Page) : Kernel :=
  ((s.claimSlot p).addPage k).upd p fun x => { x with kstack := some k }

/-- The state after `fork`. -/
def forked (c p : Slot) (k d : Page) (f : Files) : Kernel :=
  (((((((s.alloced p k).addPage d).setTop d (PGROUNDUP (s.proc c).sz)).setArea d
    ((s.proc c).pgdir.bind s.area)).upd p fun x =>
    { x with pgdir := some d, sz := (s.proc c).sz, usz := (s.proc c).usz, parent := some c }).setFiles f).upd p
    fun x => { x with state := .runnable })

/-- `thread_create` until the new thread has been counted. -/
def counted (c p : Slot) (k : Page) : Kernel :=
  ((s.alloced p k).upd p fun x => { x with pid := ((s.alloced p k).proc c).pid }).upd c fun x =>
    { x with cntThread := wrap (x.cntThread + 1) }

/-- In stride mode all threads of the process of `c` get new shares. -/
def reshared (c : Slot) (pass : ℚ) : Kernel :=
  if (s.proc c).isMLFQ then s
  else (s.noteDivisor (s.proc c).cntThread).restride (s.proc c).pid ((s.proc c).totalshare / (s.proc c).cntThread) pass

/-- `thread_create` until the new thread has its files. -/
def threaded (c p : Slot) (k : Page) (pass : ℚ) (f : Files) : Kernel :=
  let t := (s.counted c p k).reshared c pass
  (t.upd p fun x => x.asThread (t.proc c).pgdir c).setFiles f

/-- The top of the stack of a thread with id `t` that `c` creates. -/
def stackTop (c : Slot) (t : Tid) : Nat := ((s.proc c).usz + t * 2 * PGSIZE) % 2 ^ 32

/-- `thread_create` when it succeeds, from there. -/
def threadUp (p : Slot) (usz sz : Nat) : Kernel :=
  (s.upd p fun x => { x with usz := usz, sz := sz }).upd p fun x => { x with state := .runnable }

/-- `thread_create` when the first frame of the new thread cannot be pushed. -/
def threadDown (p : Slot) : Kernel := s.upd p fun x => { x with state := .unused, kstack := none }

variable {c p q : Slot} (k : Page)

theorem alloced_proc_ne (hq : q ≠ p) : (s.alloced p k).proc q = s.proc q := by
  rw [alloced, upd_proc_ne _ _ hq, addPage_proc, claimSlot_proc, if_neg hq]

theorem alloced_proc_same : (s.alloced p k).proc p =
    { (s.proc p).embryo s.nextpid (s.freeTid.getD 0) with kstack := some k } := by
  rw [alloced, upd_proc_same, addPage_proc, claimSlot_proc, if_pos rfl]

theorem counted_proc_ne (hq : q ≠ p) : (s.counted c p k).proc q =
    { s.proc q with cntThread := if q = c then wrap ((s.proc q).cntThread + 1) else (s.proc q).cntThread } := by
  unfold counted
  rw [upd_proc, upd_proc_ne _ _ hq, s.alloced_proc_ne k hq]
  split <;> rfl

theorem counted_proc_same (hc : c ≠ p) : (s.counted c p k).proc p =
    { (s.proc p).embryo (s.proc c).pid (s.freeTid.getD 0) with kstack := some k } := by
  unfold counted
  rw [upd_proc_ne _ _ hc.symm, upd_proc_same, s.alloced_proc_ne k hc, s.alloced_proc_same k]
  rfl

theorem reshared_proc (c q : Slot) (pass : ℚ) : ∃ m sh st pa, (s.reshared c pass).proc q =
    (s.proc q).withShare m sh st pa (s.proc q).cntThread := by
  unfold reshared
  split
  · exact ⟨_, _, _, _, rfl⟩
  · rw [restride_proc]
    split
    · exact ⟨_, _, _, _, rfl⟩
    · exact ⟨_, _, _, _, rfl⟩

variable (pass : ℚ) (f : Files)

theorem threaded_proc_ne (hq : q ≠ p) :
    ∃ m sh st pa n, (s.threaded c p k pass f).proc q = (s.proc q).withShare m sh st pa n := by
  obtain ⟨m, sh, st, pa, h⟩ := (s.counted c p k).reshared_proc c q pass
  unfold threaded
  rw [setFiles_proc, upd_proc_ne _ _ hq, h, s.counted_proc_ne k hq]
  exact ⟨m, sh, st, pa, _, rfl⟩

/-- The new thread before its first frame is pushed. -/
theorem threaded_proc_same (hc : c ≠ p) : ∃ m sh st pa, (s.threaded c p k pass f).proc p =
    { ((s.proc p).embryo (s.proc c).pid (s.freeTid.getD 0)).withShare m sh st pa 1 with
      kstack := some k, isThread := true, isMainThread := false, pgdir := (s.proc c).pgdir, parent := some c } := by
  obtain ⟨m, sh, st, pa, h⟩ := (s.counted c p k).reshared_proc c p pass
  obtain ⟨m', sh', st', pa', h'⟩ := (s.counted c p k).reshared_proc c c pass
  refine ⟨m, sh, st, pa, ?_⟩
  unfold threaded
  rw [setFiles_proc, upd_proc_same, h, h', s.counted_proc_same k hc, s.counted_proc_ne k hc]
  rfl

/-- Shares change no more than the slots and the divisors. -/
theorem reshared_eq (c : Slot) : s.reshared c pass =
    { s with proc := (s.reshared c pass).proc, divisors := (s.reshared c pass).divisors } := by
  unfold reshared
  split <;> rfl

theorem threaded_eq : s.threaded c p k pass f =
    { s.alloced p k with
      proc := (s.threaded c p k pass f).proc, divisors := (s.threaded c p k pass f).divisors, files := f } := by
  unfold threaded
  dsimp only
  rw [reshared_eq]
  rfl

theorem threaded_top : (s.threaded c p k pass f).top = s.top := by
  rw [threaded_eq]
  rfl

end Kernel

namespace Kernel

variable (s : Kernel)

theorem upd_upd (p : Slot) (f g : Proc → Proc) : (s.upd p f).upd p g = s.upd p fun x => g (f x) := by
  unfold upd sweep
  congr 1
  funext q
  by_cases h : q = p <;> simp [h]

theorem spoiled_pgdir (p : Slot) : s.spoiled p (s.proc p).pgdir =
    (s.claimSlot p).upd p fun x => { x with kstack := none, state := .unused } := by
  unfold spoiled upd sweep
  congr 1
  funext q
  by_cases h : q = p <;> simp [h, Proc.embryo]

theorem dropPage_addPage {k : Page} (h : k ∉ s.live) : (s.addPage k).dropPage k = s := by
  unfold addPage dropPage
  rw [Finset.erase_insert h]

theorem freeSlot_unused {p : Slot} (h : s.freeSlot = some p) : (s.proc p).state = .unused := by
  simpa using List.find?_some h

end Kernel

section Creation

variable {s : Kernel} {E : Halt → Prop} {c : Slot}

theorem wp_allocproc {stack : Option Page} {Q : Option Slot → Kernel → Prop}
    (hfull : s.freeSlot = none → Q none s)
    (hbad : ∀ p, s.freeSlot = some p → stack = none → Q none (s.spoiled p (s.proc p).pgdir))
    (hok : ∀ p k, s.freeSlot = some p → stack = some k → Q (some p) (s.alloced p k)) :
    wp (allocproc stack) Q E s := by
  simp only [allocproc, wp_bind, wp_get]
  cases hslot : s.freeSlot with
  | none => exact hfull hslot
  | some p =>
    simp only [wp_bind, wp_modifyProc, wp_modify]
    cases stack with
    | none =>
      have hend := hbad p hslot rfl
      rw [Kernel.spoiled_pgdir] at hend
      unfold Kernel.claimSlot at hend
      cases htid : s.freeTid with
      | none =>
        rw [htid] at hend
        exact hend
      | some t =>
        rw [htid] at hend
        exact hend
    | some k =>
      have hend := hok p k hslot rfl
      unfold Kernel.alloced Kernel.claimSlot at hend
      cases htid : s.freeTid with
      | none =>
        rw [htid] at hend
        exact hend
      | some t =>
        rw [htid] at hend
        exact hend

theorem Kernel.used_of_running {p : Slot} (h : (s.proc p).state = .running) : s.Used p := by
  unfold Used
  rw [h]
  decide

theorem Kernel.ne_freeSlot {p : Slot} (hc : s.Used c) (hp : s.freeSlot = some p) : c ≠ p := by
  rintro rfl
  exact hc (s.freeSlot_unused hp)

theorem wp_fork {stack dir : Option Page} {Q : Int → Kernel → Prop} (hc : s.Used c)
    (hfresh : ∀ k, stack = some k → k ∉ s.live)
    (hfull : s.freeSlot = none → Q (-1) s)
    (hbad : ∀ p dir', s.freeSlot = some p → stack = none ∨ dir = none → Q (-1) (s.spoiled p dir'))
    (hok : ∀ p k d f, s.freeSlot = some p → stack = some k → dir = some d → ¬ s.files.Unreferenced c →
      Q s.nextpid (s.forked c p k d f))
    (hE : ∀ d, dir = some d → s.files.Unreferenced c → E .filedup) : wp (fork c stack dir) Q E s := by
  simp only [fork, wp_bind]
  refine wp_allocproc hfull (fun p hp hk => hbad p _ hp (.inl hk)) fun p k hp hk => ?_
  have hne := Kernel.ne_freeSlot hc hp
  cases dir with
  | none =>
    have hstack : ((s.alloced p k).proc p).kstack = some k := by
      rw [Kernel.alloced, Kernel.upd_proc_same]
    have hback : ((s.alloced p k).dropPage k).upd p (fun x => { x with pgdir := none, kstack := none, state := .unused }) =
        s.spoiled p none := by
      have hmove : (s.alloced p k).dropPage k =
        (((s.claimSlot p).addPage k).dropPage k).upd p fun x => { x with kstack := some k } := rfl
      have hlive : k ∉ (s.claimSlot p).live := hfresh k hk
      rw [hmove, Kernel.dropPage_addPage _ hlive, Kernel.upd_upd]
      rfl
    simp only [wp_bind, wp_procOf, hstack, kfree, wp_modify, wp_modifyProc, wp_pure]
    rw [hback]
    exact hbad p none hp (.inr rfl)
  | some d =>
    have hcaller : (s.alloced p k).proc c = s.proc c := by
      rw [Kernel.alloced, Kernel.upd_proc_ne _ _ hne, Kernel.addPage_proc, Kernel.claimSlot_proc, if_neg hne]
    simp only [wp_bind, wp_procOf, takePage, wp_modify, wp_modifyProc, wp_onFiles, wp_pure, hcaller]
    refine wp_dupAll hne (fun hrefs f => ?_) (hE d rfl)
    have hpid : ((s.forked c p k d f).proc p).pid = s.nextpid := by
      simp [Kernel.forked, Kernel.alloced, Proc.embryo]
    have hQ := hok p k d f hp hk rfl hrefs
    rw [← hpid] at hQ
    exact hQ

/-- The pass value that `thread_create` gives to the threads of a process in stride mode. -/
def Kernel.createPass (s : Kernel) (junk : ℚ) : ℚ :=
  match s.findMinPass with
  | none => junk
  | some q => (s.proc q).pass

/-- The loop of `findMinPass` keeps RUNNABLE processes. -/
theorem Kernel.minPass_runnable {q : Slot} (xs : List Slot) : ∀ r : Nat × Option Slot,
    (∀ p, r.2 = some p → (s.proc p).state = .runnable) → (xs.foldl s.minPassStep r).2 = some q →
    (s.proc q).state = .runnable := by
  induction xs with
  | nil => exact fun r hr => hr q
  | cons x xs ih =>
    intro r hr
    refine ih _ fun p hp => ?_
    unfold minPassStep at hp
    split at hp
    · exact hr p hp
    · split at hp
      · exact hr p hp
      · next hrun =>
        split at hp
        · rw [← Option.some.inj hp]
          exact not_not.mp hrun
        · exact hr p hp

theorem Kernel.runnable_of_findMinPass {q : Slot} (h : s.findMinPass = some q) : (s.proc q).state = .runnable := by
  unfold findMinPass at h
  dsimp only at h
  split at h
  · cases h
  · refine minPass_runnable slots (3000000000, none) (fun p hp => ?_) h
    cases hp

theorem wp_threadCreate {stack : Option Page} {junk : ℚ} {Q : Int × Option Tid → Kernel → Prop} (hc : s.Used c)
    (hno : (s.proc c).isThread = true ∨ s.freeSlot = none → Q (-1, none) s)
    (hbad : ∀ p, (s.proc c).isThread = false → s.freeSlot = some p → stack = none →
      Q (-1, none) (s.spoiled p (s.proc p).pgdir))
    (hup : ∀ p k pass f, pass = s.createPass junk → ¬ s.files.Unreferenced c → (s.proc c).isThread = false →
      s.freeSlot = some p → stack = some k →
      s.canPush (s.proc c).pgdir ((s.stackTop c (s.freeTid.getD 0) + (2 ^ 32 - 8)) % 2 ^ 32) = true →
      Q (0, some (s.freeTid.getD 0))
        ((s.threaded c p k pass f).threadUp p (s.stackTop c (s.freeTid.getD 0)) (s.proc c).sz))
    (hdown : ∀ p k pass f, pass = s.createPass junk → ¬ s.files.Unreferenced c → (s.proc c).isThread = false →
      s.freeSlot = some p → stack = some k →
      s.canPush (s.proc c).pgdir ((s.stackTop c (s.freeTid.getD 0) + (2 ^ 32 - 8)) % 2 ^ 32) = false →
      Q (-1, none) ((s.threaded c p k pass f).threadDown p))
    (hE : ∀ k, stack = some k → s.files.Unreferenced c → E .filedup) : wp (threadCreate c stack junk) Q E s := by
  simp only [threadCreate, wp_bind, wp_get, wp_procOf]
  split
  · next hthread => exact hno (.inl hthread)
  · next hthread =>
    have hthread' : (s.proc c).isThread = false := by simpa using hthread
    simp only [wp_bind]
    refine wp_allocproc (fun hfull => hno (.inr hfull)) (fun p => hbad p hthread') fun p k hp hk => ?_
    have hne := Kernel.ne_freeSlot hc hp
    have hcaller : (s.alloced p k).proc c = s.proc c := by
      rw [Kernel.alloced, Kernel.upd_proc_ne _ _ hne, Kernel.addPage_proc, Kernel.claimSlot_proc, if_neg hne]
    simp only [wp_bind, wp_procOf, wp_modifyProc]
    change wp (splitShare c _ junk) _ E (s.counted c p k)
    have hsplit : ∀ R : Unit → Kernel → Prop,
        (∀ pass, pass = s.createPass junk → R () ((s.counted c p k).reshared c pass)) →
        wp (splitShare c s.findMinPass junk) R E (s.counted c p k) := by
      intro R hR
      simp only [splitShare, wp_bind, wp_procOf]
      unfold Kernel.reshared at hR
      split
      · next hm => simpa [hm] using hR _ rfl
      · next hm =>
        simp only [hm] at hR
        refine hR _ ?_
        unfold Kernel.createPass
        cases hmin : s.findMinPass with
        | none => rfl
        | some q =>
          have hq : q ≠ p := by
            rintro rfl
            have hrun := Kernel.runnable_of_findMinPass hmin
            rw [s.freeSlot_unused hp] at hrun
            cases hrun
          change ((s.counted c p k).proc q).pass = _
          rw [s.counted_proc_ne k hq]
    refine hsplit _ fun pass hpass => ?_
    simp only [wp_onFiles]
    have hfiles : ((s.counted c p k).reshared c pass).files = s.files := by
      rw [Kernel.reshared_eq]
      rfl
    rw [Kernel.upd_files, hfiles]
    refine wp_dupAll hne (fun hrefs f => ?_) (hE k hk)
    obtain ⟨m, sh, st, pa, hnew⟩ := s.threaded_proc_same k pass f hne
    obtain ⟨m', sh', st', pa', hold⟩ := (s.counted c p k).reshared_proc c c pass
    rw [s.counted_proc_ne k hne] at hold
    have htid : ((s.threaded c p k pass f).proc p).tid = s.freeTid.getD 0 := by rw [hnew]; rfl
    have hdir : ((s.threaded c p k pass f).proc p).pgdir = (s.proc c).pgdir := by rw [hnew]
    have husz : (((s.counted c p k).reshared c pass).proc c).usz = (s.proc c).usz := by rw [hold]; rfl
    have hsz : (((s.counted c p k).reshared c pass).proc c).sz = (s.proc c).sz := by rw [hold]; rfl
    have hpush : (s.threaded c p k pass f).canPush = s.canPush := by
      unfold Kernel.canPush
      rw [s.threaded_top]
    rw [show (((s.counted c p k).reshared c pass).upd p fun x =>
        x.asThread (((s.counted c p k).reshared c pass).proc c).pgdir c).setFiles f = s.threaded c p k pass f from rfl]
    simp only [wp_get, htid, hdir, husz, hsz, hpush]
    split
    · next hroom => exact hup p k pass f hpass hrefs hthread' hp hk hroom
    · next hroom => exact hdown p k pass f hpass hrefs hthread' hp hk (Bool.eq_false_iff.mpr hroom)

end Creation

/-! ## Exit -/

/-- A process is as before, or was woken up. -/
def Woken (a b : ProcState) : Prop := b = a ∨ (a = .sleeping ∧ b = .runnable)

theorem Woken.trans {a b c : ProcState} (h : Woken a b) (h' : Woken b c) : Woken a c := by
  unfold Woken at *
  rcases h with rfl | ⟨ha, hb⟩
  · exact h'
  · rcases h' with hc | ⟨hb', -⟩
    · exact .inr ⟨ha, hc.trans hb⟩
    · rw [hb] at hb'
      cases hb'

/-- From `s` to `t` only processes and their files change. -/
def Kernel.Only (s t : Kernel) : Prop := t = { s with proc := t.proc, files := t.files }

theorem Kernel.Only.trans {s t u : Kernel} (h : s.Only t) (h' : t.Only u) : s.Only u := by
  calc u = { t with proc := u.proc, files := u.files } := h'
    _ = { s with proc := u.proc, files := u.files } :=
      congrArg (fun v : Kernel => { v with proc := u.proc, files := u.files }) h

theorem Kernel.only_upd (s : Kernel) (p : Slot) (f : Proc → Proc) : s.Only (s.upd p f) := rfl

theorem Kernel.Only.initproc {s t : Kernel} (h : s.Only t) : t.initproc = s.initproc := by
  calc t.initproc = Kernel.initproc { s with proc := t.proc, files := t.files } := congrArg Kernel.initproc h
    _ = s.initproc := rfl

@[simps] def Proc.moved (x : Proc) (st : ProcState) (parent : Option Slot) : Proc :=
  { x with state := st, parent := parent }

/-- The parent of `x` after `init` has taken over the children of `c`. -/
def Kernel.heir (s : Kernel) (c : Slot) (x : Proc) : Option Slot :=
  if x.parent = some c then s.initproc else x.parent

/-- `t` is `s` after the processes in `G` have become zombies, others may have been
    woken up, and `init` has taken over the children of `c`. -/
structure Kernel.Left (s t : Kernel) (c : Slot) (G : Slot → Prop) : Prop where
  proc : ∀ q, ∃ st, t.proc q = (s.proc q).moved st (s.heir c (s.proc q)) ∧
    (G q → st = .zombie) ∧ (¬ G q → Woken (s.proc q).state st)
  only : s.Only t

namespace Kernel

variable (s : Kernel)

/-- The state after `wakeup1`. -/
def woken (chan : Option Slot) : Kernel := s.sweep fun _ x =>
  if x.state = .sleeping ∧ x.chan = chan ∧ chan ≠ none then { x with state := .runnable } else x

/-- The state after `abandonChildren`. -/
def abandoned (c : Slot) : Kernel :=
  let t := s.sweep fun _ x => if x.parent = some c then { x with parent := s.initproc } else x
  if ∃ p, (s.proc p).parent = some c ∧ (s.proc p).state = .zombie then t.woken s.initproc else t

theorem woken_proc (chan : Option Slot) (q : Slot) : ∃ st,
    (s.woken chan).proc q = (s.proc q).moved st (s.proc q).parent ∧ Woken (s.proc q).state st := by
  unfold woken
  rw [sweep_proc]
  split
  · next h => exact ⟨_, rfl, .inr ⟨h.1, rfl⟩⟩
  · exact ⟨_, rfl, .inl rfl⟩

theorem abandoned_proc (c q : Slot) : ∃ st,
    (s.abandoned c).proc q = (s.proc q).moved st (s.heir c (s.proc q)) ∧ Woken (s.proc q).state st := by
  have hsweep : (s.sweep fun _ x => if x.parent = some c then { x with parent := s.initproc } else x).proc q =
      (s.proc q).moved (s.proc q).state (s.heir c (s.proc q)) := by
    rw [sweep_proc]
    unfold heir
    split <;> rfl
  unfold abandoned
  dsimp only
  split
  · obtain ⟨st, hq, hw⟩ := woken_proc
      (s.sweep fun _ x => if x.parent = some c then { x with parent := s.initproc } else x) s.initproc q
    rw [hsweep] at hq hw
    exact ⟨st, hq, hw⟩
  · exact ⟨_, hsweep, .inl rfl⟩

theorem abandoned_only (c : Slot) : s.Only (s.abandoned c) := by
  unfold abandoned
  dsimp only
  split <;> rfl

/-- Waking up others after the zombies have been made. -/
theorem left_of_abandoned (c : Slot) {G : Slot → Prop} {t : Kernel} [DecidablePred G]
    (ht : ∀ q, t.proc q = (s.proc q).moved (if G q then .zombie else (s.proc q).state) (s.proc q).parent)
    (honly : s.Only t) (chan : Option Slot) : s.Left ((t.woken chan).abandoned c) c G := by
  have honly' : s.Only (t.woken chan) := honly.trans rfl
  refine ⟨fun q => ?_, honly'.trans (abandoned_only _ c)⟩
  obtain ⟨st, hq, hw⟩ := t.woken_proc chan q
  obtain ⟨st', hq', hw'⟩ := (t.woken chan).abandoned_proc c q
  rw [ht q] at hq hw
  rw [hq] at hq' hw'
  have hheir : s.heir c (s.proc q) = (t.woken chan).heir c (s.proc q) := by
    unfold heir
    rw [honly'.initproc]
  have hw := hw.trans hw'
  refine ⟨st', by rw [hq', hheir]; rfl, fun hG => ?_, fun hG => ?_⟩
  · rw [if_pos hG] at hw
    rcases hw with hw | ⟨hw, -⟩
    · exact hw
    · cases hw
  · rwa [if_neg hG] at hw

end Kernel

section Exit

variable {s : Kernel} {E : Halt → Prop} {c : Slot} {Q : Unit → Kernel → Prop}

@[simp] theorem wp_wakeup1 {chan : Option Slot} : wp (wakeup1 chan) Q E s ↔ Q () (s.woken chan) := Iff.rfl

@[simp] theorem wp_abandonChildren : wp (abandonChildren c) Q E s ↔ Q () (s.abandoned c) := by
  unfold Kernel.abandoned
  simp only [abandonChildren, wp_bind, wp_get, wp_modify]
  split
  · exact Iff.rfl
  · exact Iff.rfl

theorem wp_exit
    (hQ : ∀ t, s.initproc ≠ some c → s.Left t c (fun q => (s.proc q).pid = (s.proc c).pid) → Q () t)
    (hinit : s.initproc = some c → E .initExiting) (hnull : E .nullProc) (hclose : E .fileclose) :
    wp (exit c) Q E s := by
  simp only [exit, wp_bind, wp_get]
  split
  · next h => exact hinit h
  · next hne =>
    simp only [wp_bind, wp_onFiles]
    refine wp_closeAll_any (fun f => ?_) hclose
    -- Closing the files of the other threads changes the files only.
    refine (wp_forM_inv (fun _ t => ∃ f, t = s.setFiles f) (fun p _ t ht => ?_) _ _ ⟨f, rfl⟩).post
      fun _ t ht => ?_
    · obtain ⟨f, rfl⟩ := ht
      split
      · simp only [wp_onFiles]
        exact wp_closeAll_any (fun f' => ⟨f', rfl⟩) hclose
      · exact ⟨f, rfl⟩
    obtain ⟨f, rfl⟩ := ht
    simp only [wp_modify, wp_modifyProc, wp_procOf]
    have hgone : ∀ q, (((s.setFiles f).sweep fun p x =>
          if x.pid = (s.proc c).pid ∧ p ≠ c then { x with state := .zombie } else x).upd c
          fun x => { x with state := .zombie }).proc q =
        (s.proc q).moved (if (s.proc q).pid = (s.proc c).pid then .zombie else (s.proc q).state)
          (s.proc q).parent := by
      intro q
      rw [Kernel.upd_proc, Kernel.sweep_proc, Kernel.setFiles_proc]
      by_cases hq : q = c
      · subst hq
        simp [Proc.moved]
      · by_cases hpid : (s.proc q).pid = (s.proc c).pid <;> simp [hq, hpid, Proc.moved]
    set s₁ := ((s.setFiles f).sweep fun p x =>
      if x.pid = (s.proc c).pid ∧ p ≠ c then { x with state := .zombie } else x).upd c
      fun x => { x with state := .zombie } with hs₁
    have honly : s.Only s₁ := rfl
    clear_value s₁
    have hleft := s.left_of_abandoned c hgone honly
    split
    · simp only [wp_bind, wp_derefProc, wp_procOf, wp_wakeup1, wp_abandonChildren]
      exact ⟨fun _ => hnull, fun q _ => hQ _ hne (hleft _)⟩
    · simp only [wp_bind, wp_wakeup1, wp_abandonChildren]
      exact hQ _ hne (hleft _)

theorem wp_threadExit {retval : Int}
    (hQ : ∀ t, s.initproc ≠ some c → (s.upd c fun x => { x with retval := retval }).Left t c (· = c) → Q () t)
    (hinit : s.initproc = some c → E .initExiting) (hclose : E .fileclose) :
    wp (threadExit c retval) Q E s := by
  simp only [threadExit, wp_bind, wp_get]
  split
  · next h => exact hinit h
  · next hne =>
    simp only [wp_bind, wp_onFiles]
    refine wp_closeAll_any (fun f => ?_) hclose
    simp only [wp_modifyProc, wp_procOf]
    replace hQ := fun t => hQ t hne
    rw [show ((s.setFiles f).upd c fun x => { x with retval := retval }) =
      (s.upd c fun x => { x with retval := retval }).setFiles f from rfl]
    generalize (s.upd c fun x => { x with retval := retval }) = s at hQ
    simp only [wp_wakeup1, wp_abandonChildren]
    refine hQ _ ⟨fun q => ?_, ?_⟩
    · obtain ⟨st, hq, hw⟩ := (s.setFiles f).woken_proc _ q
      obtain ⟨st', hq', hw'⟩ := Kernel.abandoned_proc _ c q
      rw [hq] at hq' hw'
      rw [Kernel.upd_proc, hq']
      by_cases hqc : q = c
      · rw [if_pos hqc]
        exact ⟨_, rfl, fun _ => rfl, fun h => absurd hqc h⟩
      · rw [if_neg hqc]
        exact ⟨_, rfl, fun h => absurd h hqc, fun _ => hw.trans hw'⟩
    · have honly : s.Only ((s.setFiles f).woken ((s.setFiles f).proc c).parent) := rfl
      exact (honly.trans (Kernel.abandoned_only _ c)).trans (Kernel.only_upd _ _ _)

end Exit

/-! ## Reaping -/

namespace Kernel

variable (s : Kernel)

/-- The state after `reap p`, if `k` is the kernel stack. -/
def reaped (p : Slot) (k : Page) : Kernel :=
  (((s.noteReap p).setTid (s.proc p).tid false).dropPage k).upd p Proc.clear

/-- The state after `returnShare`. -/
def refunded (p : Slot) (share : ℚ) : Kernel :=
  if (s.proc p).isMLFQ then s else ((s.noteRefund (s.proc p).pid).addShare share).resetStride

/-- `wait` skips the child `p` once. -/
def skipped (p : Slot) : Kernel := s.upd p fun x => { x with isThereExec := false }

/-- The state after `reapProcess p` but for the page directory. -/
def buried (p : Slot) (k : Page) : Kernel :=
  ((s.refunded p (s.proc p).totalshare).upd p fun x => { x with totalshare := 0 }).reaped p k

variable {s} {p q : Slot} {k : Page}

@[simp] theorem refunded_proc {share : ℚ} : (s.refunded p share).proc = s.proc := by
  unfold refunded
  split <;> rfl

/-- Returning share changes no more than this. -/
theorem refunded_eq {share : ℚ} : s.refunded p share =
    { s with
      leftShare := (s.refunded p share).leftShare, mlfqStrideVal := (s.refunded p share).mlfqStrideVal
      refunds := (s.refunded p share).refunds, divisors := (s.refunded p share).divisors } := by
  unfold refunded
  split <;> rfl

theorem reaped_proc_ne (h : q ≠ p) : (s.reaped p k).proc q = s.proc q := upd_proc_ne _ _ h

theorem reaped_proc_same : (s.reaped p k).proc p = (s.proc p).clear := upd_proc_same _ _ _

theorem buried_proc_ne (h : q ≠ p) : (s.buried p k).proc q = s.proc q := by
  unfold buried
  rw [reaped_proc_ne h, upd_proc_ne _ _ h, refunded_proc]

theorem buried_proc_same : (s.buried p k).proc p = { (s.proc p).clear with totalshare := 0 } := by
  unfold buried
  rw [reaped_proc_same, upd_proc_same, refunded_proc]
  rfl

end Kernel

section Reaping

variable {s : Kernel} {E : Halt → Prop} {c p : Slot}

theorem wp_returnShare {share : ℚ} {Q : Unit → Kernel → Prop} :
    wp (returnShare p share) Q E s ↔ Q () (s.refunded p share) := by
  unfold Kernel.refunded
  simp only [returnShare, wp_bind, wp_procOf]
  split
  · exact Iff.rfl
  · exact Iff.rfl

theorem wp_reap {Q : Unit → Kernel → Prop} : wp (reap p) Q E s ↔
    ((s.proc p).kstack = none → E .kfree) ∧ ∀ k, (s.proc p).kstack = some k → Q () (s.reaped p k) := by
  simp only [reap, wp_bind, wp_procOf, wp_modify]
  cases hk : (s.proc p).kstack with
  | none => simp [kfree]
  | some k => simp [kfree, Kernel.reaped]

theorem wp_reapProcess {Q : Int → Kernel → Prop} (hmain : (s.proc p).isMainThread = true) :
    wp (reapProcess p) Q E s ↔ ((s.proc p).kstack = none → E .kfree) ∧
      ∀ k, (s.proc p).kstack = some k → ((s.proc p).pgdir = none → E .freevmNoPgdir) ∧
        ∀ d, (s.proc p).pgdir = some d → Q (s.proc p).pid ((s.buried p k).freeDir p d) := by
  simp only [reapProcess, wp_bind, wp_procOf, wp_returnShare, wp_modifyProc, wp_reap, Kernel.upd_proc_same,
    Kernel.refunded_proc, hmain, if_true]
  refine and_congr Iff.rfl (forall_congr' fun k => imp_congr_right fun _ => ?_)
  cases hd : (s.proc p).pgdir with
  | none => simp [freevm]
  | some d => simp [freevm, Kernel.buried]

/-- All that `killsamepid` does is to reap zombies that are not main threads. It leaves
    main threads alone, and no other zombie with this pid. -/
theorem wp_killsamepid (I : Kernel → Prop) {pid : Int} (hI : I s)
    (hreap : ∀ t q k, I t → (t.proc q).state = .zombie → (t.proc q).isMainThread = false →
      (t.proc q).kstack = some k → I (t.reaped q k))
    (hnull : ∀ t q, I t → (t.proc q).state = .zombie → (t.proc q).kstack = none → E .kfree) (p : Slot) :
    wp (killsamepid pid) (fun _ t => I t ∧ (t.proc p).isThread = (s.proc p).isThread ∧
      (t.proc p).isMainThread = (s.proc p).isMainThread ∧
      ((s.proc p).isMainThread = true → t.proc p = s.proc p) ∧
      ((s.proc p).pid = pid → (s.proc p).state = .zombie → (s.proc p).isMainThread = false →
        (t.proc p).kstack = none) ∧
      ∀ q, (t.proc q).pid = pid → (t.proc q).state = .zombie → (t.proc q).isMainThread = true) E s := by
  -- A zombie that is to go is either still to come or has gone.
  refine (wp_forM_inv (fun ps t => I t ∧ (t.proc p).isThread = (s.proc p).isThread ∧
      (t.proc p).isMainThread = (s.proc p).isMainThread ∧
      ((s.proc p).isMainThread = true → t.proc p = s.proc p) ∧
      ((s.proc p).pid = pid → (s.proc p).state = .zombie → (s.proc p).isMainThread = false →
        (p ∈ ps ∧ t.proc p = s.proc p) ∨ (t.proc p).kstack = none) ∧
      ∀ q, q ∉ ps → (t.proc q).pid = pid → (t.proc q).state = .zombie → (t.proc q).isMainThread = true)
      (fun q ps t ht => ?_) slots s
      ⟨hI, rfl, rfl, fun _ => rfl, fun _ _ _ => .inl ⟨mem_slots p, rfl⟩, fun q hq => absurd (mem_slots q) hq⟩).post
      fun _ t ht => ?_
  · obtain ⟨ht, hthread, hmain, hsame, hgone, hall⟩ := ht
    have hleft : ∀ r, r ∉ ps → r ≠ q → r ∉ q :: ps := fun r hr hne => by simp [hr, hne]
    simp only [wp_bind, wp_procOf]
    split
    · next hq =>
      rw [wp_reap]
      refine ⟨hnull t q ht hq.2.2, fun k hk => ?_⟩
      have hrest : ∀ r, r ∉ ps → ((t.reaped q k).proc r).pid = pid → ((t.reaped q k).proc r).state = .zombie →
          ((t.reaped q k).proc r).isMainThread = true := by
        intro r hr
        by_cases hrq : r = q
        · subst hrq
          rw [Kernel.reaped_proc_same]
          intro _ h
          cases h
        · rw [Kernel.reaped_proc_ne hrq]
          exact hall r (hleft r hr hrq)
      refine ⟨hreap t q k ht hq.2.2 hq.2.1 hk, ?_⟩
      by_cases hpq : p = q
      · subst hpq
        refine ⟨?_, ?_, ?_, ?_, hrest⟩ <;> rw [Kernel.reaped_proc_same]
        · exact hthread
        · exact hmain
        · exact fun h => absurd (hmain.trans h) (by simp [hq.2.1])
        · exact fun _ _ _ => .inr rfl
      · refine ⟨?_, ?_, ?_, ?_, hrest⟩ <;> rw [Kernel.reaped_proc_ne hpq]
        · exact hthread
        · exact hmain
        · exact hsame
        · refine fun h₁ h₂ h₃ => (hgone h₁ h₂ h₃).imp_left fun h => ⟨?_, h.2⟩
          exact (List.mem_cons.mp h.1).resolve_left hpq
    · next hq =>
      refine ⟨ht, hthread, hmain, hsame, fun h₁ h₂ h₃ => (hgone h₁ h₂ h₃).imp_left fun h => ⟨?_, h.2⟩,
        fun r hr h₁ h₂ => ?_⟩
      · refine (List.mem_cons.mp h.1).resolve_left fun hpq => hq ?_
        rw [← hpq, h.2]
        exact ⟨h₁, h₃, h₂⟩
      · by_cases hrq : r = q
        · subst hrq
          by_contra hmain
          exact hq ⟨h₁, Bool.eq_false_iff.mpr hmain, h₂⟩
        · exact hall r (hleft r hr hrq) h₁ h₂
  · obtain ⟨ht, hthread, hmain, hsame, hgone, hall⟩ := ht
    refine ⟨ht, hthread, hmain, hsame, fun h₁ h₂ h₃ => (hgone h₁ h₂ h₃).resolve_left fun h => ?_,
      fun r => hall r List.not_mem_nil⟩
    cases h.1

/-- No zombie with the pid of `p` is left but main threads. -/
def Kernel.MainsOnly (s : Kernel) (p : Slot) : Prop :=
  ∀ q, (s.proc q).pid = (s.proc p).pid → (s.proc q).state = .zombie → (s.proc q).isMainThread = true

theorem wp_waitLoop (I : Kernel → Prop) {R : Option Int × Bool → Kernel → Prop}
    (hskip : ∀ t p, I t → (t.proc p).parent = some c → I (t.skipped p))
    (hreap : ∀ t q k, I t → (t.proc q).state = .zombie → (t.proc q).isMainThread = false →
      (t.proc q).kstack = some k → I (t.reaped q k))
    (hnull : ∀ t q, I t → (t.proc q).state = .zombie → (t.proc q).kstack = none → E .kfree)
    (hmain : ∀ t p, I t → (t.proc p).parent = some c → (t.proc p).state = .zombie →
      (t.proc p).isMainThread = true → t.MainsOnly p → wp (reapProcess p) (fun pid u => R (some pid, true) u) E t)
    (hmixed : ∀ t p, I t → (t.proc p).parent = some c → (t.proc p).state = .zombie →
      (t.proc p).isMainThread = false → (t.proc p).isThread = false → E .kfree)
    (hend : ∀ t b, I t → R (none, b) t) (ps : List Slot) (b : Bool) (hI : I s) : wp (waitLoop c ps b) R E s := by
  induction ps generalizing b s with
  | nil => exact hend s b hI
  | cons p ps ih =>
    simp only [waitLoop, wp_bind, wp_procOf]
    split
    · exact ih b hI
    · next hparent =>
      have hparent : (s.proc p).parent = some c := not_not.mp hparent
      split
      · rw [wp_bind, wp_modifyProc]
        exact ih b (hskip s p hI hparent)
      · split
        · next hz =>
          rw [wp_bind]
          refine (wp_killsamepid I hI hreap hnull p).post fun _ t ht => ?_
          obtain ⟨ht, hthread, hmain', hsame, hgone, hall⟩ := ht
          simp only [wp_bind, wp_procOf]
          split
          · exact ih true ht
          · next hy =>
            rw [hthread, hmain'] at hy
            rw [wp_bind]
            by_cases hm : (s.proc p).isMainThread = true
            · have hp := hsame hm
              refine hmain t p ht (hp ▸ hparent) (hp ▸ hz) (hp ▸ hm) fun q hq => hall q ?_
              rw [hq, hp]
            · -- Neither: it is gone already.
              have hm : (s.proc p).isMainThread = false := by simpa using hm
              have hk := hgone rfl hz hm
              have hstop : E .kfree := hmixed s p hI hparent hz hm (by simpa [hm] using hy)
              simp only [reapProcess, wp_bind, wp_procOf, wp_returnShare, wp_modifyProc, wp_reap,
                Kernel.upd_proc_same, Kernel.refunded_proc, hk]
              refine ⟨fun _ => hstop, fun k h => ?_⟩
              cases h
        · exact ih true hI

/-- The caller goes to sleep until a child wakes it up. -/
def Kernel.dozing (s : Kernel) (c : Slot) : Kernel := s.upd c fun x => { x with chan := some c, state := .sleeping }

theorem wp_wait (I : Kernel → Prop) {Q : Outcome Int → Kernel → Prop} (hI : I s)
    (hskip : ∀ t p, I t → (t.proc p).parent = some c → I (t.skipped p))
    (hreap : ∀ t q k, I t → (t.proc q).state = .zombie → (t.proc q).isMainThread = false →
      (t.proc q).kstack = some k → I (t.reaped q k))
    (hnull : ∀ t q, I t → (t.proc q).state = .zombie → (t.proc q).kstack = none → E .kfree)
    (hmain : ∀ t p, I t → (t.proc p).parent = some c → (t.proc p).state = .zombie →
      (t.proc p).isMainThread = true → t.MainsOnly p → wp (reapProcess p) (fun pid u => Q (.ret pid) u) E t)
    (hmixed : ∀ t p, I t → (t.proc p).parent = some c → (t.proc p).state = .zombie →
      (t.proc p).isMainThread = false → (t.proc p).isThread = false → E .kfree)
    (hend : ∀ t, I t → Q (.ret (-1)) t) (hsleep : ∀ t, I t → Q .asleep (t.dozing c)) :
    wp (wait c) Q E s := by
  simp only [wait, wp_bind]
  refine wp_waitLoop I hskip hreap hnull (fun t p ht hp hz hm ho => ?_) hmixed (fun t b ht => ?_) slots false hI
  · exact (hmain t p ht hp hz hm ho).post fun _ _ h => h
  · simp only [wp_bind, wp_procOf]
    split
    · exact hend t ht
    · exact hsleep t ht

/-- The caller sleeps in `thread_join`. -/
def Kernel.joining (s : Kernel) (c p : Slot) (thread : Int) : Kernel :=
  s.upd c fun y => { y with chan := some c, state := .sleeping, joining := some (p, thread) }

/-- The state after `thread_join` has given back slot `p`. -/
def Kernel.joined (s : Kernel) (c p : Slot) (k : Page) : Kernel :=
  ((s.refunded p (s.proc p).share).reaped p k).upd c fun y => { y with joining := none }

/-- The thread in slot `p` is the one that `c` waits for, and has not exited. -/
def Kernel.Pending (s : Kernel) (c p : Slot) (thread : Int) : Prop :=
  (s.proc p).state ≠ .zombie ∧ (s.proc p).pid = (s.proc c).pid ∧ ((s.proc p).tid : Int) = thread

instance (c p : Slot) (thread : Int) : Decidable (s.Pending c p thread) :=
  inferInstanceAs (Decidable (_ ∧ _))

theorem wp_joinWaits {thread : Int} {Q : Bool → Kernel → Prop} :
    wp (joinWaits c p thread) Q E s ↔
      (s.Pending c p thread → Q true (s.joining c p thread)) ∧ (¬ s.Pending c p thread → Q false s) := by
  unfold Kernel.Pending
  simp only [joinWaits, wp_bind, wp_procOf]
  split
  · next h => simp [h, Kernel.joining]
  · next h => simp [h]

theorem wp_joinReap {Q : Unit → Kernel → Prop} :
    wp (joinReap c p) Q E s ↔ ((s.proc p).kstack = none → E .kfree) ∧
      ∀ k, (s.proc p).kstack = some k → Q () (s.joined c p k) := by
  simp [joinReap, wp_returnShare, wp_reap, Kernel.joined]

theorem wp_joinSlot {thread : Int} {Q : Outcome (Int × Option Int) → Kernel → Prop} :
    wp (joinSlot c p thread) Q E s ↔
      (s.Pending c p thread → Q .asleep (s.joining c p thread)) ∧
      (¬ s.Pending c p thread → ((s.proc p).kstack = none → E .kfree) ∧
        ∀ k, (s.proc p).kstack = some k → Q (.ret (0, some (s.proc p).retval)) (s.joined c p k)) := by
  simp [joinSlot, wp_joinWaits, wp_joinReap]

theorem wp_threadJoin {thread : Int} {Q : Outcome (Int × Option Int) → Kernel → Prop} :
    wp (threadJoin c thread) Q E s ↔
      (s.joinTarget c thread = none → Q (.ret (-1, none)) s) ∧
      ∀ p t, s.joinTarget c thread = some (p, t) → wp (joinSlot c p t) Q E s := by
  simp only [threadJoin, wp_bind, wp_get]
  cases s.joinTarget c thread with
  | none => simp
  | some r => simp [Prod.ext_iff]

end Reaping

/-! ## Exec -/

/-- The slot gets the new image. -/
@[simps] def Proc.withImage (x : Proc) (dir : Page) (usz : Nat) : Proc := { x with pgdir := some dir, usz := usz }

/-- The caller of a successful `exec` that is not a thread. -/
@[simps!] def Proc.execed (x : Proc) (dir : Page) (usz : Nat) : Proc :=
  { x.withImage dir usz with sz := usz + NPROC * (2 * PGSIZE), tid := 0 }

/-- The caller of a successful `exec` that was a thread. -/
@[simps!] def Proc.promoted (x : Proc) (dir : Page) (usz : Nat) (parent : Option Slot) : Proc :=
  { x.withImage dir usz with
    sz := usz + NPROC * (2 * PGSIZE), isMainThread := true, isThread := false, parent := parent }

/-- The main thread that `exec` of another thread has replaced. -/
@[simps] def Proc.deposed (x : Proc) : Proc := { x with isMainThread := false, isThereExec := true }

namespace Kernel

variable (s : Kernel)

/-- The new page directory with its image and `n` stacks. -/
@[simps!] def mapImage (dir : Page) (usz n : Nat) : Kernel :=
  ((s.addPage dir).setTop dir (usz + n * (2 * PGSIZE))).setArea dir (some usz)

/-- The state after `switchImage`. -/
def imaged (c : Slot) (dir : Page) (usz n : Nat) : Kernel :=
  (s.mapImage dir usz n).upd c fun x => x.withImage dir usz

/-- `exec` of a process until the other threads are made zombies. -/
def execed (c : Slot) (dir : Page) (usz : Nat) : Kernel :=
  (s.mapImage dir usz NPROC).upd c fun x => x.execed dir usz

/-- `exec` of a thread, whose parent is `m`, until the other threads are made zombies. -/
def promoted (c m : Slot) (dir : Page) (usz : Nat) : Kernel :=
  ((s.mapImage dir usz NPROC).upd m Proc.deposed).upd c fun x =>
    x.promoted dir usz (s.proc m).parent

/-- From `s` to `t` other threads of `c` are made zombies; those in `ps` are still to come. -/
structure Zombifying (s t : Kernel) (c : Slot) (ps : List Slot) : Prop where
  other : ∀ q, ¬ ((s.proc q).pid = (s.proc c).pid ∧ q ≠ c) → t.proc q = s.proc q
  sibling : ∀ q, (s.proc q).pid = (s.proc c).pid → q ≠ c → (q ∈ ps ∧ t.proc q = s.proc q) ∨ ∃ parent,
    t.proc q = (s.proc q).moved .zombie parent ∧ ((s.proc q).isMainThread = true → parent = (s.proc q).parent)
  pending : ∀ q ∈ ps, t.proc q = s.proc q
  /-- The new parent is what the parent of the old one was at that time. -/
  parent : ∀ q, (s.proc q).pid = (s.proc c).pid → q ≠ c → q ∉ ps → (s.proc q).isMainThread = false →
    ∃ r, (s.proc q).parent = some r ∧
      ((t.proc q).parent = (s.proc r).parent ∨ (r ∉ ps ∧ (t.proc q).parent = (t.proc r).parent))
  nodup : ps.Nodup
  only : s.Only t

/-- From `s` to `t` the other threads of `c` are made zombies. -/
def Zombified (s t : Kernel) (c : Slot) : Prop := Zombifying s t c []

namespace Zombifying

variable {s} {t u : Kernel} {c p : Slot} {ps : List Slot}

theorem moved (h : Zombifying s t c ps) (p : Slot) : ∃ st parent, t.proc p = (s.proc p).moved st parent ∧
    ((s.proc p).isMainThread = true → parent = (s.proc p).parent) := by
  by_cases hp : (s.proc p).pid = (s.proc c).pid ∧ p ≠ c
  · rcases h.sibling p hp.1 hp.2 with h | ⟨parent, h, hm⟩
    · exact ⟨_, _, h.2, fun _ => rfl⟩
    · exact ⟨_, _, h, hm⟩
  · exact ⟨_, _, h.other p hp, fun _ => rfl⟩

/-- One more thread is made a zombie. -/
theorem step (h : Zombifying s t c (p :: ps)) (hp : (s.proc p).pid = (s.proc c).pid ∧ p ≠ c)
    {parent : Option Slot} (hm : (s.proc p).isMainThread = true → parent = (s.proc p).parent)
    (hr : (s.proc p).isMainThread = false → ∃ r, (s.proc p).parent = some r ∧ parent = (t.proc r).parent)
    {f : Proc → Proc} (hf : f (t.proc p) = (s.proc p).moved .zombie parent) : Zombifying s (t.upd p f) c ps := by
  have hnodup := List.nodup_cons.mp h.nodup
  refine ⟨fun q hq => ?_, fun q hq hqc => ?_, fun q hq => ?_, fun q hq hqc hdone hmain => ?_, hnodup.2,
    h.only.trans (t.only_upd p f)⟩
  · have hqp : q ≠ p := by
      rintro rfl
      exact hq hp
    rw [upd_proc_ne _ _ hqp, h.other q hq]
  · by_cases hqp : q = p
    · subst hqp
      rw [upd_proc_same]
      exact .inr ⟨parent, hf, hm⟩
    · rw [upd_proc_ne _ _ hqp]
      exact (h.sibling q hq hqc).imp_left fun h => ⟨(List.mem_cons.mp h.1).resolve_left hqp, h.2⟩
  · have hqp : q ≠ p := fun hqp => hnodup.1 (hqp ▸ hq)
    rw [upd_proc_ne _ _ hqp, h.pending q (List.mem_cons_of_mem p hq)]
  · by_cases hqp : q = p
    · subst hqp
      obtain ⟨r, hparent, rfl⟩ := hr hmain
      refine ⟨r, hparent, ?_⟩
      rw [upd_proc_same, hf]
      by_cases hmem : r ∈ q :: ps
      · rw [h.pending r hmem]
        exact .inl rfl
      · obtain ⟨hrq, hrps⟩ := not_or.mp (mt List.mem_cons.mpr hmem)
        rw [upd_proc_ne _ _ hrq]
        exact .inr ⟨hrps, rfl⟩
    · obtain ⟨r, hparent, hcases⟩ := h.parent q hq hqc (List.not_mem_cons_of_ne_of_not_mem hqp hdone) hmain
      refine ⟨r, hparent, ?_⟩
      rw [upd_proc_ne _ _ hqp]
      refine hcases.imp_right fun ⟨hmem, heq⟩ => ?_
      obtain ⟨hrp, hrps⟩ := not_or.mp (mt List.mem_cons.mpr hmem)
      rw [upd_proc_ne _ _ hrp]
      exact ⟨hrps, heq⟩

/-- A slot that is not another thread of `c` is passed over. -/
theorem skip (h : Zombifying s t c (p :: ps)) (hp : ¬ ((s.proc p).pid = (s.proc c).pid ∧ p ≠ c)) :
    Zombifying s t c ps := by
  have hne : ∀ q, (s.proc q).pid = (s.proc c).pid → q ≠ c → q ≠ p := by
    rintro q hq hqc rfl
    exact hp ⟨hq, hqc⟩
  refine ⟨h.other, fun q hq hqc => (h.sibling q hq hqc).imp_left fun h => ⟨?_, h.2⟩,
    fun q hq => h.pending q (List.mem_cons_of_mem p hq), fun q hq hqc hdone hmain => ?_,
    (List.nodup_cons.mp h.nodup).2, h.only⟩
  · exact (List.mem_cons.mp h.1).resolve_left (hne q hq hqc)
  · obtain ⟨r, hparent, hcases⟩ :=
      h.parent q hq hqc (List.not_mem_cons_of_ne_of_not_mem (hne q hq hqc) hdone) hmain
    exact ⟨r, hparent, hcases.imp_right fun h => ⟨fun hmem => h.1 (List.mem_cons_of_mem p hmem), h.2⟩⟩

end Zombifying

end Kernel

section Exec

variable {s : Kernel} {E : Halt → Prop} {c : Slot} {Q : Unit → Kernel → Prop}

theorem wp_switchImage {dir : Page} {usz n : Nat} :
    wp (switchImage c dir usz n) Q E s ↔ Q () (s.imaged c dir usz n) := Iff.rfl

theorem wp_zombifySiblings (hnull : E .nullProc) (hQ : ∀ t, s.Zombified t c → Q () t) :
    wp (zombifySiblings c) Q E s := by
  refine (wp_forM_inv (fun ps t => s.Zombifying t c ps) (fun p ps t ht => ?_) slots s
    ⟨fun _ _ => rfl, fun q _ _ => .inl ⟨mem_slots q, rfl⟩, fun _ _ => rfl, fun q _ _ hq => absurd (mem_slots q) hq,
      List.nodup_finRange NPROC, rfl⟩).post fun _ t ht => hQ t ht
  have hc : t.proc c = s.proc c := ht.other c fun h => h.2 rfl
  have hp : t.proc p = s.proc p := ht.pending p List.mem_cons_self
  simp only [wp_bind, wp_procOf, hc, hp]
  split
  · next hpc =>
    split
    · next hmain =>
      refine ht.step hpc (fun _ => rfl) (fun h => ?_) ?_
      · rw [hmain] at h
        cases h
      · rw [hp]
        rfl
    · next hmain =>
      simp only [wp_bind, wp_derefProc, wp_procOf, wp_modifyProc, Kernel.upd_upd]
      refine ⟨fun _ => hnull, fun r hr => ?_⟩
      have hm : (s.proc p).isMainThread = true → (t.proc r).parent = (s.proc p).parent := fun h => absurd h hmain
      refine ht.step hpc hm (fun _ => ⟨r, hr, rfl⟩) ?_
      rw [hp]
      rfl
  · next hpc => exact ht.skip hpc

theorem wp_execImage {Q : Int → Kernel → Prop} {img : Loaded} (hbad : img = .bad → Q (-1) s)
    (hshort : ∀ dir usz n, img = .short dir usz n → Q (-1) (s.imaged c dir usz n))
    (hprocess : ∀ dir usz old t, img = .ok dir usz → (s.proc c).isThread = false → (s.proc c).pgdir = some old →
      (s.execed c dir usz).Zombified t c → Q 0 (t.freeDir c old))
    (hthread : ∀ dir usz old m t, img = .ok dir usz → (s.proc c).isThread = true → (s.proc c).pgdir = some old →
      (s.proc c).parent = some m → (s.promoted c m dir usz).Zombified t c → Q 0 (t.freeDir c old))
    (hnull : E .nullProc) (hdir : (s.proc c).pgdir = none → E .freevmNoPgdir) : wp (exec c img) Q E s := by
  cases img with
  | bad => exact hbad rfl
  | short dir usz n => exact hshort dir usz n rfl
  | ok dir usz =>
    have hend : ∀ t, (∀ old, (s.proc c).pgdir = some old → Q 0 (t.freeDir c old)) →
        wp (do freevm c (s.proc c).pgdir; pure 0 : KProg Int) Q E t := by
      intro t ht
      cases hd : (s.proc c).pgdir with
      | none => exact hdir hd
      | some old => exact ht old hd
    simp only [exec, wp_bind, wp_procOf, wp_switchImage, wp_modifyProc]
    simp only [wp_bind] at hend
    have hcaller : ∀ f, ((((s.imaged c dir usz NPROC).upd c f)).proc c) = f ((s.proc c).withImage dir usz) := by
      intro f
      rw [Kernel.upd_proc_same, Kernel.imaged, Kernel.upd_proc_same]
      rfl
    simp only [hcaller, Proc.withImage_isThread]
    split
    · next hthread' =>
      simp only [becomeMain, wp_bind, wp_procOf, wp_derefProc, hcaller, Proc.withImage_parent]
      refine ⟨fun _ => hnull, fun m hm => ?_⟩
      simp only [wp_modifyProc]
      refine wp_zombifySiblings hnull fun t ht => hend t fun old hold => ?_
      refine hthread dir usz old m t rfl hthread' hold hm ?_
      convert ht using 1
      unfold Kernel.promoted Kernel.imaged Kernel.upd Kernel.sweep
      congr 1
      funext q
      by_cases hqc : q = c
      · subst hqc
        by_cases hqm : q = m
        · simp [hqm, Proc.promoted, Proc.withImage, Proc.deposed]
        · simp [hqm, Ne.symm hqm, Proc.promoted, Proc.withImage]
      · by_cases hqm : q = m
        · subst hqm
          simp [hqc, Proc.deposed]
        · simp [hqc, hqm]
    · next hthread' =>
      simp only [wp_bind, wp_modifyProc]
      refine wp_zombifySiblings hnull fun t ht => hend t fun old hold => ?_
      refine hprocess dir usz old t rfl (by simpa using hthread') hold ?_
      rw [Kernel.imaged, Kernel.upd_upd, Kernel.upd_upd] at ht
      exact ht

end Exec

end Xv6
