-- SUMMARY: Threads between begin_op and end_op or with sleeplocks, while siblings exit, exec and join.
import Mathlib.Data.Fintype.Sum
import Xv6.Process.Runs

/-! # Threads inside file system operations

Kernel threads run one at a time and are suspended anywhere. `begin_op`, `end_op`,
`acquiresleep` and `releasesleep` are steps of their own; waiting in them is sleeping.
All calls on processes run outside of operations and without sleeplocks, since the code
makes them so. `exit` does not run in one go: it closes files between the siblings that
it makes zombies, and that takes operations, in which it sleeps.

Who is inside an operation and who holds a sleeplock is history; the log has a counter,
and a lock only knows whether it is locked.
-/

namespace Xv6

open Prog

/-- The slot is neither `UNUSED` nor `ZOMBIE`. -/
def Kernel.Alive (s : Kernel) (q : Slot) : Prop := s.Used q ∧ (s.proc q).state ≠ .zombie

instance (s : Kernel) (q : Slot) : Decidable (s.Alive q) := inferInstanceAs (Decidable (_ ∧ _))

namespace Bracketed

/-! ## exit, piece by piece -/

/-- The loop of `exit` at slot `p`. -/
def exitSibling (c p : Slot) : KProg Unit := do
  let x ← procOf p
  if x.pid = (← procOf c).pid ∧ p ≠ c then do
    onFiles (closeAll p)
    modifyProc p fun x => { x with state := .zombie }
  else pure ()

/-- `exit` after the loop. -/
def exitEnd (c : Slot) : KProg Unit := do
  modifyProc c fun x => { x with state := .zombie }
  let y ← procOf c
  -- Parent might be sleeping in wait().
  if y.isThread then do
    let q ← derefProc y.parent
    wakeup1 (← procOf q).parent
  else wakeup1 y.parent
  abandonChildren c

/-! ## State -/

/-- The sleeplocks: of inodes and of buffers. -/
abbrev Lock := InodePtr ⊕ Fin NBUF

structure State where
  kernel : Kernel
  outstanding : Int
  committing : Bool
  /-- `log.lh.n`. -/
  logged : Nat
  /-- Between `begin_op` and `end_op`. -/
  inside : Slot → Bool
  holder : Lock → Option Slot
  /-- Where the loop of `exit` is. -/
  exiting : Slot → Option (List Slot)

namespace State

/-- The thread is in no operation and has no sleeplock. -/
def Outside (s : State) (c : Slot) : Prop := s.inside c = false ∧ ∀ l, s.holder l ≠ some c

instance (s : State) (c : Slot) : Decidable (s.Outside c) := inferInstanceAs (Decidable (_ ∧ _))

/-- `c` runs, and is not amid an operation. -/
def Calls (s : State) (c : Slot) : Prop := (s.kernel.proc c).state = .running ∧ s.Outside c

instance (s : State) (c : Slot) : Decidable (s.Calls c) := inferInstanceAs (Decidable (_ ∧ _))

/-- The table has changed. Who is gone does not exit any more. -/
def setKernel (s : State) (k : Kernel) : State :=
  { s with kernel := k, exiting := fun q => if k.Alive q then s.exiting q else none }

def setExiting (s : State) (c : Slot) (r : Option (List Slot)) : State :=
  { s with exiting := Function.update s.exiting c r }

/-- Run code that works on processes. -/
def runs {α : Type} (s : State) (m : KProg α) : Option State :=
  match m s.kernel with
  | .ok r => some (s.setKernel r.2)
  | .error _ => none

end State

inductive Label where
  /-- Any call but `exit`. -/
  | call (c : Slot) (call : SysCall)
  | exit (c : Slot)
  | exitSibling (c : Slot)
  | exitEnd (c : Slot)
  | beginOp (c : Slot)
  /-- `log_write` of a block that is not in the header yet. -/
  | logWrite (c : Slot)
  | endOp (c : Slot)
  /-- The end of `commit`. -/
  | commit
  | acquiresleep (c : Slot) (l : Lock)
  | releasesleep (c : Slot) (l : Lock)

def isExit : SysCall → Bool
  | .exit => true
  | _ => false

/-- What the kernel does next. -/
def State.next (s : State) : Label → Option State
  | .call c call =>
    if call.Ready s.kernel c ∧ s.Outside c ∧ s.exiting c = none ∧ isExit call = false then s.runs (call.run c)
    else none
  | .exit c =>
    if SysCall.exit.Ready s.kernel c ∧ s.Outside c ∧ s.exiting c = none ∧ s.kernel.initproc ≠ some c then
      some (s.setExiting c (some slots))
    else none
  | .exitSibling c =>
    match s.exiting c with
    | some (p :: ps) => if s.Calls c then (s.setExiting c (some ps)).runs (Bracketed.exitSibling c p) else none
    | _ => none
  | .exitEnd c =>
    match s.exiting c with
    | some [] => if s.Calls c then s.runs (Bracketed.exitEnd c) else none
    | _ => none
  | .beginOp c =>
    if (s.kernel.proc c).state = .running ∧ s.inside c = false ∧ s.committing = false ∧
        s.logged + (s.outstanding + 1) * MAXOPBLOCKS ≤ LOGSIZE then
      some { s with outstanding := s.outstanding + 1, inside := Function.update s.inside c true }
    else none
  | .logWrite c =>
    if (s.kernel.proc c).state = .running ∧ s.inside c = true ∧ s.logged < LOGSIZE - 1 then
      some { s with logged := s.logged + 1 }
    else none
  | .endOp c =>
    if (s.kernel.proc c).state = .running ∧ s.inside c = true ∧ s.committing = false then
      some { s with
        outstanding := s.outstanding - 1
        committing := decide (s.outstanding - 1 = 0)
        inside := Function.update s.inside c false }
    else none
  | .commit => if s.committing = true then some { s with committing := false, logged := 0 } else none
  | .acquiresleep c l =>
    if (s.kernel.proc c).state = .running ∧ s.holder l = none then
      some { s with holder := Function.update s.holder l (some c) }
    else none
  | .releasesleep c l =>
    if (s.kernel.proc c).state = .running ∧ s.holder l = some c then
      some { s with holder := Function.update s.holder l none }
    else none

/-- No operation is under way. -/
def State.start (k : Kernel) : State where
  kernel := k
  outstanding := 0
  committing := false
  logged := 0
  inside := fun _ => false
  holder := fun _ => none
  exiting := fun _ => none

/-- From `s` the kernel gets to the second state, and every step on the way meets `Ok`. The
    scheduler and devices may do their part at any time. -/
inductive Run (Ok : State → Label → Prop) (s : State) : State → Prop where
  | refl : Run Ok s s
  | idle {t : State} {k : Kernel} (h : Run Ok s t) (hidle : Idle t.kernel k) : Run Ok s { t with kernel := k }
  | step {t u : State} (h : Run Ok s t) (l : Label) (hok : Ok t l) (hnext : t.next l = some u) : Run Ok s u

end Bracketed

/-! ## Who goes -/

section Alive

variable {s t : Kernel} {c p q : Slot}

theorem Kernel.alive_of_running (h : (s.proc c).state = .running) : s.Alive c := by
  unfold Alive Used
  rw [h]
  exact ⟨by decide, by decide⟩

/-- From `s` to `t` nobody goes but `Z`, and only pids in `P` come. -/
structure Kernel.Turns (s t : Kernel) (Z : Slot → Prop) (P : Int → Prop) : Prop where
  stays : ∀ q, s.Alive q → ¬ Z q → t.Alive q
  pid : ∀ q, s.Alive q → t.Alive q → (t.proc q).pid = (s.proc q).pid
  new : ∀ q, ¬ s.Alive q → t.Alive q → P (t.proc q).pid

section Turns

variable {Z : Slot → Prop} {P : Int → Prop}

/-- Nobody comes. -/
theorem Kernel.Turns.of_iff (halive : ∀ q, t.Alive q ↔ s.Alive q ∧ ¬ Z q)
    (hpid : ∀ q, (t.proc q).pid = (s.proc q).pid) : s.Turns t Z P :=
  ⟨fun q hq hz => (halive q).mpr ⟨hq, hz⟩, fun q _ _ => hpid q, fun q hno hq => absurd ((halive q).mp hq).1 hno⟩

theorem Kernel.Turns.refl : s.Turns s Z P := ⟨fun _ hq _ => hq, fun _ _ _ => rfl, fun _ hno hq => absurd hq hno⟩

theorem Kernel.Turns.mono {Z' : Slot → Prop} (h : s.Turns t Z P) (hz : ∀ q, Z q → Z' q) : s.Turns t Z' P :=
  ⟨fun q hq hno => h.stays q hq fun hZ => hno (hz q hZ), h.pid, h.new⟩

/-- A change in which nobody goes, and then one in which nobody comes. -/
theorem Kernel.Turns.trans {u : Kernel} (h : s.Turns t (fun _ => False) P) (h' : t.Turns u Z fun _ => False) :
    s.Turns u Z P :=
  ⟨fun q hq hz => h'.stays q (h.stays q hq id) hz,
    fun q hq hq' => (h'.pid q (h.stays q hq id) hq').trans (h.pid q hq (h.stays q hq id)),
    fun q hno hq => by
      have ht : t.Alive q := by
        by_contra ht
        exact h'.new q ht hq
      exact (h'.pid q ht hq).symm ▸ h.new q hno ht⟩

theorem Kernel.Turns.freeDir {d : Page} (h : s.Turns t Z P) : s.Turns (t.freeDir p d) Z P := ⟨h.stays, h.pid, h.new⟩

theorem Proc.Like.alive (h : (s.proc q).Like (t.proc q)) : t.Alive q ↔ s.Alive q :=
  and_congr h.state.used (not_congr h.state.zombie)

theorem Kernel.Like.turns (h : s.Like t) : s.Turns t Z P :=
  ⟨fun q hq _ => (h.proc q).alive.mpr hq, fun q _ _ => (h.proc q).pid,
    fun q hno hq => absurd ((h.proc q).alive.mp hq) hno⟩

theorem Kernel.Retires.turns (h : s.Retires t Z) : s.Turns t Z P := by
  refine .of_iff (fun q => ?_) fun q => (h.same q).pid
  unfold Alive
  rw [h.used, ne_eq, h.zombie]
  tauto

/-- A slot that is not in use any more. -/
theorem Kernel.Drops.turns (h : s.Drops t p) (hp : s.Alive p → Z p) : s.Turns t Z P := by
  have hne : ∀ q, t.Alive q → q ≠ p := fun q hq heq => h.unused (heq ▸ hq.1)
  refine ⟨fun q hq hz => ?_, fun q _ hq => (h.other q (hne q hq)).pid,
    fun q hno hq => absurd ((h.other q (hne q hq)).alive.mp hq) hno⟩
  have hqp : q ≠ p := by
    rintro rfl
    exact hz (hp hq)
  exact (h.other q hqp).alive.mpr hq

theorem Kernel.Reimages.turns {dir : Page} (h : s.Reimages t c dir) : s.Turns t (fun _ => False) P := by
  refine .of_iff (fun q => ?_) fun q => h.pid_eq q
  unfold Alive
  rw [h.used, h.state_eq, not_false_eq_true, and_true]

/-- A slot that was free has a new process. -/
theorem Kernel.turns_of_new (hp : s.freeSlot = some p) (hother : ∀ q, q ≠ p → (s.proc q).Like (t.proc q))
    (hpid : P (t.proc p).pid) : s.Turns t Z P := by
  have hfree : ¬ s.Alive p := fun h => h.1 (by simpa using List.find?_some hp)
  have hne : ∀ {q}, s.Alive q → q ≠ p := fun hq heq => hfree (heq ▸ hq)
  refine ⟨fun q hq _ => (hother q (hne hq)).alive.mpr hq, fun q hq _ => (hother q (hne hq)).pid, fun q hno hq => ?_⟩
  by_cases hqp : q = p
  · rw [hqp]
    exact hpid
  · exact absurd ((hother q hqp).alive.mp hq) hno

theorem Kernel.Scanned.turns (h : s.Scanned c t) : s.Turns t (fun _ => False) fun _ => False := by
  induction h with
  | refl => exact .refl
  | skip _ _ ih => exact ih.trans like_skipped.turns
  | reap _ hz _ _ ih => exact ih.trans (drops_reaped.turns fun hq => hq.2 hz)

end Turns

/-- Besides its caller, these are the threads that a call takes away. -/
def SysCall.Hits (s : Kernel) (c q : Slot) : SysCall → Prop
  | .exit => (s.proc q).pid = (s.proc c).pid
  | .exec (.ok _ _) => (s.proc q).pid = (s.proc c).pid
  -- `thread_join` frees the first child, which it takes for the exited thread
  | .threadJoin thread => ∃ t, s.joinTarget c thread = some (q, t) ∧ ¬ s.Pending c q t
  | _ => False

/-- Nobody else is alive who has the pid of `c`. -/
def Kernel.Alone (s : Kernel) (c : Slot) : Prop := ∀ q, q ≠ c → (s.proc q).pid = (s.proc c).pid → ¬ s.Alive q

instance (s : Kernel) (c : Slot) : Decidable (s.Alone c) :=
  inferInstanceAs (Decidable (∀ q, q ≠ c → (s.proc q).pid = (s.proc c).pid → ¬ s.Alive q))

theorem Kernel.Alone.turns {Z : Slot → Prop} {P : Int → Prop} (h : s.Alone c) (hc : s.Alive c) (hc' : t.Alive c)
    (ht : s.Turns t Z P) (hP : ¬ P (s.proc c).pid) : t.Alone c := by
  intro q hne hpid hq
  have hpid' := hpid.trans (ht.pid c hc hc')
  by_cases hs : s.Alive q
  · exact h q hne ((ht.pid q hs hq).symm.trans hpid') hs
  · exact hP (hpid' ▸ ht.new q hs hq)

/-- The pids of the processes that a call brings. -/
def SysCall.Brings (s : Kernel) (c : Slot) (pid : Int) : SysCall → Prop
  | .fork _ _ => pid = s.nextpid
  | .threadCreate _ _ => pid = (s.proc c).pid
  | _ => False

theorem Kernel.After.turns {call : SysCall} (h : s.After c call t) (hrun : (s.proc c).state = .running) :
    s.Turns t (fun q => q = c ∨ call.Hits s c q) (call.Brings s c) := by
  have hfree : ∀ {p}, s.freeSlot = some p → ¬ s.Alive p := fun hp h => h.1 (by simpa using List.find?_some hp)
  cases h with
  | full _ => exact .refl
  | noThread _ => exact .refl
  | notLoaded => exact .refl
  | noTarget => exact .refl
  | mild _ hlike _ => exact hlike.turns
  | setCpuShare hlike => exact hlike.turns
  | forkSpoiled hp _ => exact drops_spoiled.turns fun hq => absurd hq (hfree hp)
  | createSpoiled _ hp => exact drops_spoiled.turns fun hq => absurd hq (hfree hp)
  | forked hp _ _ _ =>
    exact turns_of_new hp (fun q hq => forked_proc_ne hq ▸ .refl _) forked_born.pid
  | threadUp _ hp _ =>
    refine turns_of_new hp (fun q hq => threadUp_like hq) (threadUp_born ?_).pid
    rintro rfl
    exact hfree hp (alive_of_running hrun)
  | threadDown _ hp _ _ => exact drops_threadDown.turns fun hq => absurd hq (hfree hp)
  | exited _ h => exact h.retires.turns.mono fun q hq => .inr hq
  | @threadExited v t _ h =>
    have hset : s.Turns (s.upd c fun x => { x with retval := v }) (fun _ => False)
        ((SysCall.threadExit v).Brings s c) :=
      .of_iff (fun q => by simp [Alive, Used, upd_proc, apply_ite]) fun q => by simp [upd_proc, apply_ite]
    exact (hset.trans h.retires.turns).mono fun _ hq => .inl hq
  | imaged _ _ => exact reimages_imaged.turns.mono fun _ => False.elim
  | execed _ _ _ hz =>
    refine ((reimages_execed.turns.trans hz.retires.turns).mono fun q hq => .inr ?_).freeDir
    rw [reimages_execed.pid_eq, reimages_execed.pid_eq] at hq
    exact hq.1
  | promoted _ _ _ _ hz =>
    refine ((reimages_promoted.turns.trans hz.retires.turns).mono fun q hq => .inr ?_).freeDir
    rw [reimages_promoted.pid_eq, reimages_promoted.pid_eq] at hq
    exact hq.1
  | waited h => exact h.turns.mono fun _ => False.elim
  | dozed h => exact (h.turns.trans (like_dozing (h.running hrun)).turns).mono fun _ => False.elim
  | @buried t p k d h _ hz _ _ _ _ =>
    exact ((h.turns.trans (drops_buried.turns fun hq => hq.2 hz)).mono fun _ => False.elim).freeDir
  | joining => exact (like_joining hrun).turns
  | joined ht hp _ => exact drops_joined.turns fun _ => .inr ⟨_, ht, hp⟩

end Alive

namespace Bracketed

section Exit

variable {k : Kernel} {c p : Slot} {P : Int → Prop}

theorem wp_exitSibling : wp (exitSibling c p)
    (fun _ t => k.Turns t (fun q => q = p ∧ (k.proc p).pid = (k.proc c).pid ∧ p ≠ c) P) (fun _ => True) k := by
  simp only [exitSibling, wp_bind, wp_procOf]
  split
  · next hp =>
    simp only [wp_bind, wp_onFiles, wp_modifyProc]
    refine wp_closeAll_any (fun f => ?_) trivial
    refine .of_iff (fun q => ?_) fun q => by simp [Kernel.upd_proc, apply_ite]
    by_cases hq : q = p
    · simp [Kernel.Alive, hq, hp]
    · simp [Kernel.Alive, Kernel.Used, hq]
  · exact .refl

theorem wp_exitEnd : wp (exitEnd c) (fun _ t => k.Turns t (· = c) P) (fun _ => True) k := by
  have hleft : ∀ chan, k.Turns (((k.upd c fun x => { x with state := .zombie }).woken chan).abandoned c) (· = c) P :=
    fun chan => by
    have h : k.Left _ c (· = c) := k.left_of_abandoned c (t := k.upd c fun x => { x with state := .zombie })
      (fun q => by
        rw [Kernel.upd_proc]
        split <;> rfl) rfl chan
    exact h.retires.turns
  simp only [exitEnd, wp_bind, wp_modifyProc, wp_procOf]
  split
  · simp only [wp_bind, wp_procOf, wp_derefProc, wp_wakeup1, wp_abandonChildren]
    exact ⟨fun _ => trivial, fun p _ => hleft _⟩
  · simp only [wp_bind, wp_wakeup1, wp_abandonChildren]
    exact hleft _

end Exit

/-! ## Invariant -/

/-- A process exits and loads a program when it has no other thread, threads are joined when
    they have exited, and a new process gets a pid that nobody has. -/
def State.Orderly (s : State) : Label → Prop
  | .exit c | .call c (.exec (.ok _ _)) => s.kernel.Alone c
  | .call c (.threadJoin thread) =>
    ∀ r ∈ s.kernel.joinTarget c thread, (s.kernel.proc r.1).state = .zombie ∨ s.kernel.Pending c r.1 r.2
  | .call _ (.fork _ _) => ∀ q, s.kernel.Alive q → (s.kernel.proc q).pid ≠ s.kernel.nextpid
  | _ => True

instance (s : State) : (l : Label) → Decidable (s.Orderly l)
  | .exit c => inferInstanceAs (Decidable (s.kernel.Alone c))
  | .call c (.exec (.ok _ _)) => inferInstanceAs (Decidable (s.kernel.Alone c))
  | .call c (.threadJoin thread) => inferInstanceAs (Decidable (∀ r ∈ s.kernel.joinTarget c thread,
      (s.kernel.proc r.1).state = .zombie ∨ s.kernel.Pending c r.1 r.2))
  | .call _ (.fork _ _) =>
    inferInstanceAs (Decidable (∀ q, s.kernel.Alive q → (s.kernel.proc q).pid ≠ s.kernel.nextpid))
  | .call _ (.exec .bad) | .call _ (.exec (.short _ _ _)) | .call _ (.threadCreate _ _) | .call _ (.threadExit _)
  | .call _ .exit | .call _ .wait | .call _ (.kill _) | .call _ (.sbrk _ _) | .call _ (.setCpuShare _)
  | .call _ (.file _) | .exitSibling _ | .exitEnd _ | .beginOp _ | .logWrite _ | .endOp _ | .commit
  | .acquiresleep _ _ | .releasesleep _ _ => isTrue trivial

/-- The counter counts, whoever is inside or has a lock is alive, and whoever exits is alone. -/
structure State.Sound (s : State) : Prop where
  count : s.outstanding = (Finset.univ.filter fun q => s.inside q = true).card
  alive : ∀ q, ¬ s.Outside q → s.kernel.Alive q
  alone : ∀ c, s.exiting c ≠ none → s.kernel.Alive c ∧ s.kernel.Alone c

section Sound

variable {s t : State} {c p : Slot} {l : Label}

/-- Code that takes nobody away who is inside, and brings nobody who has the pid of a process
    that exits. -/
theorem State.Sound.runs {α : Type} {m : KProg α} {Z : Slot → Prop} {P : Int → Prop} (h : s.Sound)
    (hnext : s.runs m = some t) (hm : wp m (fun _ k => s.kernel.Turns k Z P) (fun _ => True) s.kernel)
    (hZ : ∀ q, s.kernel.Alive q → ¬ s.Outside q → ¬ Z q)
    (hP : ∀ c, s.exiting c ≠ none → ¬ P (s.kernel.proc c).pid) : t.Sound := by
  unfold State.runs at hnext
  split at hnext
  · next r hr =>
    cases hnext
    have hturns := hm.of_run hr
    refine ⟨h.count, fun q hq => hturns.stays q (h.alive q hq) (hZ q (h.alive q hq) hq), fun c hc => ?_⟩
    have hc' : r.2.Alive c ∧ s.exiting c ≠ none := by
      dsimp only [State.setKernel] at hc
      split at hc
      · next halive => exact ⟨halive, hc⟩
      · exact absurd rfl hc
    obtain ⟨hlive, halone⟩ := h.alone c hc'.2
    exact ⟨hc'.1, halone.turns hlive hc'.1 hturns (hP c hc'.2)⟩
  · cases hnext

theorem card_enter {f : Slot → Bool} (h : f c = false) :
    (Finset.univ.filter fun q => Function.update f c true q = true).card =
      (Finset.univ.filter fun q => f q = true).card + 1 := by
  have hset : (Finset.univ.filter fun q => Function.update f c true q = true) =
      insert c (Finset.univ.filter fun q => f q = true) := by
    ext q
    by_cases hq : q = c
    · simp [hq]
    · simp [hq, Function.update_of_ne]
  rw [hset, Finset.card_insert_of_notMem (by simp [h])]

theorem card_leave {f : Slot → Bool} (h : f c = true) :
    (Finset.univ.filter fun q => Function.update f c false q = true).card + 1 =
      (Finset.univ.filter fun q => f q = true).card := by
  have hback : Function.update (Function.update f c false) c true = f := by
    rw [Function.update_idem, ← h, Function.update_eq_self]
  have hcard := card_enter (f := Function.update f c false) (Function.update_self c false f)
  rw [hback] at hcard
  exact hcard.symm

theorem State.Orderly.not_hits {call : SysCall} {q : Slot} (hok : s.Orderly (.call c call))
    (hexit : isExit call = false) (hne : q ≠ c) (hq : s.kernel.Alive q) : ¬ call.Hits s.kernel c q := by
  intro hhit
  unfold SysCall.Hits at hhit
  split at hhit
  · cases hexit
  · exact hok q hne hhit hq
  · obtain ⟨t, htarget, hready⟩ := hhit
    exact (hok (q, t) htarget).elim hq.2 hready
  · exact hhit

theorem State.Orderly.not_brings {call : SysCall} {d : Slot} (hok : s.Orderly (.call c call))
    (hd : s.kernel.Alive d) (hne : (s.kernel.proc c).pid ≠ (s.kernel.proc d).pid) :
    ¬ call.Brings s.kernel c (s.kernel.proc d).pid := by
  intro hnew
  unfold SysCall.Brings at hnew
  split at hnew
  · exact hok d hd hnew
  · exact hne hnew.symm
  · exact hnew

theorem State.Sound.step (h : s.Sound) (hok : s.Orderly l) (hnext : s.next l = some t) : t.Sound := by
  cases l with
  | call c call =>
    simp only [State.next] at hnext
    split at hnext
    · next hc =>
      obtain ⟨hready, hout, hcall, hexit⟩ := hc
      refine h.runs hnext (hready.after.post fun _ k hk => hk.turns hready.running) (fun q hq hin => ?_) fun d hd => ?_
      · rintro (rfl | hhit)
        · exact hin hout
        · exact hok.not_hits hexit (fun heq : q = c => hin (heq ▸ hout)) hq hhit
      · obtain ⟨hlive, halone⟩ := h.alone d hd
        have hne : c ≠ d := fun heq => hd (heq ▸ hcall)
        exact hok.not_brings hlive fun hpid => halone c hne hpid (Kernel.alive_of_running hready.running)
    · cases hnext
  | exit c =>
    simp only [State.next] at hnext
    split at hnext
    · next hc =>
      cases hnext
      refine ⟨h.count, h.alive, fun d hd => ?_⟩
      by_cases hdc : d = c
      · rw [hdc]
        exact ⟨Kernel.alive_of_running hc.1.running, hok⟩
      · exact h.alone d ((Function.update_of_ne hdc _ _).symm.trans_ne hd)
    · cases hnext
  | exitSibling c =>
    simp only [State.next] at hnext
    split at hnext
    · next p ps hpc =>
      split at hnext
      · have hexit : ∀ d, (s.setExiting c (some ps)).exiting d ≠ none → s.exiting d ≠ none := fun d hd => by
          by_cases hdc : d = c
          · rw [hdc, hpc]
            exact Option.some_ne_none _
          · exact (Function.update_of_ne hdc _ _).symm.trans_ne hd
        have h' : (s.setExiting c (some ps)).Sound := ⟨h.count, h.alive, fun d hd => h.alone d (hexit d hd)⟩
        refine h'.runs hnext (wp_exitSibling (P := fun _ => False)) (fun q hq _ => ?_) fun _ _ => id
        rintro ⟨rfl, hpid, hne⟩
        exact (h.alone c (hpc ▸ Option.some_ne_none _)).2 q hne hpid hq
      · cases hnext
    · cases hnext
  | exitEnd c =>
    simp only [State.next] at hnext
    split at hnext
    · split at hnext
      · next hc =>
        refine h.runs hnext (wp_exitEnd (P := fun _ => False)) (fun q hq hin => ?_) fun _ _ => id
        rintro rfl
        exact hin hc.2
      · cases hnext
    · cases hnext
  | beginOp c =>
    simp only [State.next] at hnext
    split at hnext
    · next hc =>
      cases hnext
      refine ⟨?_, fun q hq => ?_, h.alone⟩
      · dsimp only
        rw [card_enter hc.2.1, h.count]
        push_cast
        rfl
      · by_cases hqc : q = c
        · rw [hqc]
          exact Kernel.alive_of_running hc.1
        · refine h.alive q fun hout => hq ⟨?_, hout.2⟩
          exact (Function.update_of_ne hqc _ _).trans hout.1
    · cases hnext
  | logWrite c =>
    simp only [State.next] at hnext
    split at hnext
    · cases hnext
      exact ⟨h.count, h.alive, h.alone⟩
    · cases hnext
  | endOp c =>
    simp only [State.next] at hnext
    split at hnext
    · next hc =>
      cases hnext
      refine ⟨?_, fun q hq => ?_, h.alone⟩
      · have hcard := card_leave hc.2.1
        dsimp only
        rw [h.count, ← hcard]
        push_cast
        ring
      · refine h.alive q fun hout => hq ⟨?_, hout.2⟩
        by_cases hqc : q = c
        · rw [hqc]
          exact Function.update_self c _ _
        · exact (Function.update_of_ne hqc _ _).trans hout.1
    · cases hnext
  | commit =>
    simp only [State.next] at hnext
    split at hnext
    · cases hnext
      exact ⟨h.count, h.alive, h.alone⟩
    · cases hnext
  | acquiresleep c l =>
    simp only [State.next] at hnext
    split at hnext
    · next hc =>
      cases hnext
      refine ⟨h.count, fun q hq => ?_, h.alone⟩
      by_cases hqc : q = c
      · rw [hqc]
        exact Kernel.alive_of_running hc.1
      · refine h.alive q fun hout => hq ⟨hout.1, fun m hm => ?_⟩
        by_cases hml : m = l
        · rw [hml] at hm
          exact hqc (Option.some.inj ((Function.update_self l _ _).symm.trans hm)).symm
        · exact hout.2 m ((Function.update_of_ne hml _ _).symm.trans hm)
    · cases hnext
  | releasesleep c l =>
    simp only [State.next] at hnext
    split at hnext
    · cases hnext
      refine ⟨h.count, fun q hq => h.alive q fun hout => hq ⟨hout.1, fun m hm => ?_⟩, h.alone⟩
      by_cases hml : m = l
      · rw [hml] at hm
        cases (Function.update_self l _ _).symm.trans hm
      · exact hout.2 m ((Function.update_of_ne hml _ _).symm.trans hm)
    · cases hnext

theorem Run.sound (h : Run State.Orderly s t) (hs : s.Sound) : t.Sound := by
  induction h with
  | refl => exact hs
  | idle _ hidle ih =>
    refine ⟨ih.count, fun q hq => (hidle.like.proc q).alive.mpr (ih.alive q hq), fun c hc => ?_⟩
    obtain ⟨hlive, halone⟩ := ih.alone c hc
    have hlive' := (hidle.like.proc c).alive.mpr hlive
    exact ⟨hlive', halone.turns hlive hlive' (hidle.like.turns (Z := fun _ => False) (P := fun _ => False)) id⟩
  | step _ l hok hnext ih => exact ih.step hok hnext

end Sound

/-- One after the other, threads are picked and take a step that meets `Ok`. -/
def play (Ok : State → Label → Prop) [∀ s l, Decidable (Ok s l)] : List (Slot × Label) → State → Option State
  | [], s => some s
  | (c, l) :: rest, s =>
    let t := { s with kernel := s.kernel.dispatch c }
    if s.kernel.Schedulable c ∧ Ok t l then (t.next l).bind (play Ok rest) else none

theorem Run.of_play {Ok : State → Label → Prop} [∀ s l, Decidable (Ok s l)] {s₀ t : State} :
    ∀ {ls : List (Slot × Label)} {s : State}, Run Ok s₀ s → play Ok ls s = some t → Run Ok s₀ t
  | [], s, h, hp => Option.some.inj hp ▸ h
  | (c, l) :: rest, s, h, hp => by
    unfold play at hp
    dsimp only at hp
    split at hp
    · next hc =>
      obtain ⟨u, hu, hp⟩ := Option.bind_eq_some_iff.mp hp
      exact Run.of_play (.step (.idle h (Kernel.idle_dispatch hc.1)) l hc.2 hu) hp
    · cases hp

theorem Run.exists_of_play {Ok : State → Label → Prop} [∀ s l, Decidable (Ok s l)] {s : State}
    {ls : List (Slot × Label)} {test : State → Bool} (h : (play Ok ls s).any test = true) :
    ∃ t, Run Ok s t ∧ test t = true := by
  cases hp : play Ok ls s with
  | none =>
    rw [hp] at h
    cases h
  | some t =>
    rw [hp] at h
    exact ⟨t, .of_play .refl hp, h⟩

end Bracketed

end Xv6
