-- SUMMARY: What timer interrupts and sys_yield do to the first process while it is alone.
import Xv6.Scheduler.Clock

/-! # One process

As long as nobody else wants to run, the scheduler comes back to the first process
whenever it gives up the CPU, so that a run is known from the timer interrupts and the
statements of `sys_yield` that the process meets.
-/

namespace Xv6

/-- The table with nothing but the first process. -/
def soloTable (stack dir : Page) (root : InodePtr) (x : Proc) (ticks : Nat) : Kernel :=
  { boot stack dir root with
    proc := fun q => if q = 0 then x else .zero
    mlfqTicks := ticks }

section Table

variable {stack dir : Page} {root : InodePtr} {x : Proc} {t : Nat} {l : Nat} {q : Slot}

theorem soloTable_boostDue (ht : t < 100) : (soloTable stack dir root x t).boostDue = soloTable stack dir root x t :=
  if_neg (Nat.not_le_of_lt ht)

/-- A boost sets the process back. -/
theorem soloTable_boostDue_mlfq (ht : 100 ≤ t) (hx : x.isMLFQ = true) : (soloTable stack dir root x t).boostDue =
    soloTable stack dir root { x with priority := 0, pticks := 0, ptotalticks := 0 } 0 := by
  rw [Kernel.boostDue, if_pos (show 100 ≤ (soloTable stack dir root x t).mlfqTicks from ht)]
  unfold Kernel.mlfqBoost soloTable
  congr 1
  funext q
  dsimp only
  by_cases hq : q = 0
  · simp only [hq, if_true, hx]
  · simp only [hq, if_false]
    exact if_neg Bool.false_ne_true

theorem soloTable_addPass {n : ℚ} : (soloTable stack dir root x t).addPass n = soloTable stack dir root x t :=
  if_neg (lt_irrefl (100 : ℚ))

theorem soloTable_upd {f : Proc → Proc} : (soloTable stack dir root x t).upd 0 f = soloTable stack dir root (f x) t := by
  unfold soloTable Kernel.upd Kernel.sweep
  congr 1
  funext q
  dsimp only
  split <;> rfl

theorem soloTable_waitsAt_ne (hq : q ≠ 0) : ¬ (soloTable stack dir root x t).WaitsAt l q := by
  rintro ⟨⟨-, hst⟩, -⟩
  dsimp only [soloTable] at hst
  rw [if_neg hq] at hst
  exact ProcState.noConfusion hst

end Table

namespace Clock

variable {m n k : Clock} {Ok : Clock → Act → Prop} {stack dir : Page} {root : InodePtr} {x : Proc} {t i l : Nat}
  {p : YieldPoint}

/-- Every step is allowed. -/
abbrev Any (_ : Clock) (_ : Act) : Prop := True

theorem Run.trans (h : Run Ok m n) (h' : Run Ok n k) : Run Ok m k := by
  induction h' with
  | refl => exact h
  | step _ hok hstep ih => exact .step ih hok hstep

theorem setPoint_same {c : Slot} : (m.setPoint c p).point c = p := Function.update_self _ _ _

/-- The machine with nothing but the first process, and its point in `sys_yield`. -/
structure Alone (stack dir : Page) (root : InodePtr) (m : Clock) (x : Proc) (t i : Nat) (p : YieldPoint) : Prop where
  kernel : m.kernel = soloTable stack dir root x t
  yields : m.yields = i
  point : m.point 0 = p

/-- A scan has gone past `j` slots in a row. -/
def past (j : Nat) : Scan := ⟨j, j, j⟩

theorem past_aligned {j : Nat} (hj : j ≤ 63) : (past j).Aligned := by
  constructor <;> dsimp only [past] <;> omega

theorem slotAt_val {j : Nat} (hj : j < 63) : (slotAt j).val = j := Nat.mod_eq_of_lt hj

theorem past_turn {j : Nat} (hj : j ≤ 63) (ht : t < 100) : (past j).turn l (soloTable stack dir root x t) =
    if j = 63 then .over (soloTable stack dir root x t)
    else if (soloTable stack dir root x t).WaitsAt l (slotAt j) then
      .switch (slotAt j) ⟨j + 1, 1, slotAt j + 1⟩ ((soloTable stack dir root x t).dispatch (slotAt j))
    else .pass ⟨j + 1, j + 1, slotAt j + 1⟩ (soloTable stack dir root x t) := by
  have hturn := (past_aligned hj).turn_eq l (soloTable stack dir root x t)
  rw [soloTable_boostDue ht, soloTable_addPass] at hturn
  exact hturn

/-- The level after `l`, or back to the beginning. -/
def afterScan (l : Nat) : Control := if l < 2 then .scan (l + 1) (past 0) else .loop

theorem not_running_scan {σ : Scan} (hctl : m.ctl = .scan l σ) (c : Slot) (back : Option (Nat × Scan)) :
    m.ctl ≠ .running c back := by
  rw [hctl]
  exact Control.noConfusion

/-- A scan goes past the next slot. -/
theorem Alone.scan_pass (h : Alone stack dir root m x t i p) (ht : t < 100) {j : Nat} (hj : j < 63)
    (hctl : m.ctl = .scan l (past j)) (hnone : j = 0 → ¬ (soloTable stack dir root x t).WaitsAt l 0) :
    Alone stack dir root m.sched x t i p ∧ m.sched.ctl = .scan l (past (j + 1)) := by
  have hwaits : ¬ (soloTable stack dir root x t).WaitsAt l (slotAt j) := by
    by_cases hzero : j = 0
    · subst hzero
      exact hnone rfl
    · refine soloTable_waitsAt_ne fun hslot => hzero ?_
      rw [← slotAt_val hj, hslot]
      rfl
  have hturn : (past j).turn l m.kernel = .pass (past (j + 1)) m.kernel := by
    rw [h.kernel, past_turn hj.le ht, if_neg hj.ne, if_neg hwaits, slotAt_val hj]
    rfl
  have hsched : m.sched = { m with ctl := .scan l (past (j + 1)) } := by
    unfold sched
    rw [hctl]
    dsimp only
    rw [hturn]
  rw [hsched]
  exact ⟨⟨h.kernel, h.yields, h.point⟩, rfl⟩

/-- There is a boost, and the scan goes past the next slot. -/
theorem Alone.scan_boost (h : Alone stack dir root m x t i p) (ht : 100 ≤ t) (hx : x.isMLFQ = true)
    (hctl : m.ctl = .scan l (past 1)) :
    Alone stack dir root m.sched { x with priority := 0, pticks := 0, ptotalticks := 0 } 0 i p := by
  have hturn := (past_aligned (j := 1) (by decide)).turn_eq l m.kernel
  rw [h.kernel, soloTable_boostDue_mlfq ht hx, if_neg (by decide), if_neg (soloTable_waitsAt_ne (by decide)),
    ← h.kernel] at hturn
  unfold sched
  rw [hctl]
  dsimp only
  rw [hturn]
  exact ⟨rfl, h.yields, h.point⟩

/-- All slots were looked at. -/
theorem Alone.scan_over (h : Alone stack dir root m x t i p) (ht : t < 100) (hctl : m.ctl = .scan l (past 63)) :
    Alone stack dir root m.sched x t i p ∧ m.sched.ctl = afterScan l := by
  have hturn : (past 63).turn l m.kernel = .over m.kernel := by
    rw [h.kernel, past_turn le_rfl ht, if_pos rfl]
  unfold sched afterScan
  rw [hctl]
  dsimp only
  rw [hturn]
  dsimp only
  split
  · exact ⟨⟨h.kernel, h.yields, h.point⟩, rfl⟩
  · refine ⟨⟨?_, h.yields, h.point⟩, rfl⟩
    dsimp only
    rw [h.kernel, soloTable_addPass]

/-- The process runs, and the scheduler will go on behind it. -/
structure Active (stack dir : Page) (root : InodePtr) (m : Clock) (x : Proc) (t i : Nat) (p : YieldPoint) : Prop
    extends Alone stack dir root m x t i p where
  running : ∃ l ≤ 2, m.ctl = .running 0 (some (l, past 1))

/-- The process can be chosen. -/
structure Ready (x : Proc) : Prop where
  isMLFQ : x.isMLFQ = true
  runnable : x.state = .runnable
  priority : x.priority ≤ 2

theorem Ready.waitsAt_iff (hx : Ready x) : (soloTable stack dir root x t).WaitsAt l 0 ↔ x.priority = l :=
  ⟨fun h => h.2, fun h => ⟨⟨hx.isMLFQ, hx.runnable⟩, h⟩⟩

section Scheduler

variable (hsched : ∀ m, Ok m .sched)
include hsched

/-- Nobody waits in the slots to come. -/
theorem Alone.scan_end (h : Alone stack dir root m x t i p) (ht : t < 100) {j : Nat} (hj : j ≤ 63)
    (hctl : m.ctl = .scan l (past j)) (hnone : j = 0 → ¬ (soloTable stack dir root x t).WaitsAt l 0) :
    ∃ n, Run Ok m n ∧ Alone stack dir root n x t i p ∧ n.ctl = afterScan l := by
  obtain ⟨d, hd⟩ := Nat.exists_eq_add_of_le hj
  induction d generalizing m j with
  | zero =>
    obtain ⟨ha, hc⟩ := h.scan_over ht (hctl.trans (by rw [hd]; rfl))
    exact ⟨m.sched, .step .refl (hsched _) (.sched (not_running_scan hctl)), ha, hc⟩
  | succ d ih =>
    have hlt : j < 63 := by omega
    obtain ⟨ha, hc⟩ := h.scan_pass ht hlt hctl hnone
    obtain ⟨n, hn, ha, hc⟩ := ih ha hlt hc (fun h0 => absurd h0 (Nat.succ_ne_zero j)) (by omega)
    exact ⟨n, .trans (.step .refl (hsched _) (.sched (not_running_scan hctl))) hn, ha, hc⟩

/-- The scan of its level chooses the process. -/
theorem Alone.scan_switch (h : Alone stack dir root m x t i p) (ht : t < 100) (hx : Ready x)
    (hctl : m.ctl = .scan x.priority (past 0)) :
    ∃ n, Run Ok m n ∧ Active stack dir root n { x with state := .running } t i p := by
  have hturn : (past 0).turn x.priority m.kernel =
      .switch 0 (past 1) (soloTable stack dir root { x with state := .running } t) := by
    have hwaits : (soloTable stack dir root x t).WaitsAt x.priority (slotAt 0) := hx.waitsAt_iff.mpr rfl
    rw [h.kernel, past_turn (Nat.zero_le 63) ht, if_neg (by decide), if_pos hwaits]
    exact congrArg (Turn.switch 0 (past 1)) soloTable_upd
  refine ⟨m.sched, .step .refl (hsched _) (.sched (not_running_scan hctl)), ?_⟩
  unfold sched
  rw [hctl]
  dsimp only
  rw [hturn]
  exact ⟨⟨rfl, h.yields, h.point⟩, x.priority, hx.priority, rfl⟩

/-- From the first scan on, the levels are scanned until the process is found. -/
theorem Alone.scan_levels (h : Alone stack dir root m x t i p) (ht : t < 100) (hx : Ready x)
    (hl : l ≤ x.priority) (hctl : m.ctl = .scan l (past 0)) :
    ∃ n, Run Ok m n ∧ Active stack dir root n { x with state := .running } t i p := by
  obtain ⟨d, hd⟩ := Nat.exists_eq_add_of_le hl
  induction d generalizing m l with
  | zero => exact h.scan_switch hsched ht hx (hctl.trans (by rw [hd]; rfl))
  | succ d ih =>
    have hlevel : x.priority ≠ l := by omega
    obtain ⟨n, hn, ha, hc⟩ := h.scan_end hsched ht (Nat.zero_le 63) hctl fun _ hw => hlevel (hx.waitsAt_iff.mp hw)
    have hpriority := hx.priority
    rw [afterScan, if_pos (by omega)] at hc
    obtain ⟨k, hk, hactive⟩ := ih ha (by omega) hc (by omega)
    exact ⟨k, hn.trans hk, hactive⟩

theorem Alone.loop (h : Alone stack dir root m x t i p) (ht : t < 100) (hx : Ready x) (hctl : m.ctl = .loop) :
    ∃ n, Run Ok m n ∧ Active stack dir root n { x with state := .running } t i p := by
  have hpick : m.sched = { m with ctl := .pick } := by
    unfold sched
    rw [hctl]
    dsimp only
    rw [h.kernel, soloTable_boostDue ht, ← h.kernel]
  have hscan : m.sched.sched = { m with ctl := .scan 0 (past 0) } := by
    rw [hpick]
    unfold sched
    dsimp only
    rw [if_pos]
    · rfl
    · rw [h.kernel]
      exact le_refl (100 : ℚ)
  have hrun : Run Ok m m.sched.sched := by
    refine .step (.step .refl (hsched _) (.sched fun c back => ?_)) (hsched _) (.sched fun c back => ?_)
    · rw [hctl]
      exact Control.noConfusion
    · rw [hpick]
      exact Control.noConfusion
  have ha : Alone stack dir root m.sched.sched x t i p := by
    rw [hscan]
    exact ⟨h.kernel, h.yields, h.point⟩
  obtain ⟨n, hn, hactive⟩ := ha.scan_levels hsched ht hx (Nat.zero_le _) (by rw [hscan])
  exact ⟨n, hrun.trans hn, hactive⟩

/-- Wherever the scheduler goes on, it comes back to the process. -/
theorem Alone.back (h : Alone stack dir root m x t i p) (ht : t < 100) (hx : Ready x) {j : Nat} (hj : j ≤ 63)
    (hl : l ≤ 2) (hctl : m.ctl = .scan l (past j)) (hnone : j = 0 → x.priority < l) :
    ∃ n, Run Ok m n ∧ Active stack dir root n { x with state := .running } t i p := by
  obtain ⟨d, hd⟩ := Nat.exists_eq_add_of_le hl
  induction d generalizing m l j with
  | zero =>
    obtain ⟨n, hn, ha, hc⟩ := h.scan_end hsched ht hj hctl fun h0 hw => (hnone h0).ne (hx.waitsAt_iff.mp hw)
    rw [afterScan, if_neg (by omega)] at hc
    obtain ⟨k, hk, hactive⟩ := ha.loop hsched ht hx hc
    exact ⟨k, hn.trans hk, hactive⟩
  | succ d ih =>
    obtain ⟨n, hn, ha, hc⟩ := h.scan_end hsched ht hj hctl fun h0 hw => (hnone h0).ne (hx.waitsAt_iff.mp hw)
    rw [afterScan, if_pos (by omega)] at hc
    by_cases hlevel : l + 1 ≤ x.priority
    · obtain ⟨k, hk, hactive⟩ := ha.scan_levels hsched ht hx hlevel hc
      exact ⟨k, hn.trans hk, hactive⟩
    · obtain ⟨k, hk, hactive⟩ := ih ha (Nat.zero_le 63) (by omega) hc (fun _ => Nat.lt_of_not_le hlevel) (by omega)
      exact ⟨k, hn.trans hk, hactive⟩

end Scheduler

/-! ## Events -/

/-- What the process meets: a timer interrupt, or the next statement of `sys_yield`. -/
inductive Event where
  | timer
  | yield
  deriving DecidableEq, Repr

def Event.act : Event → Act
  | .timer => .timer
  | .yield => .yield

/-- The process, `MLFQ_ticks`, the calls of `sys_yield` and where the process is in it. -/
structure Solo where
  x : Proc
  t : Nat
  i : Nat
  p : YieldPoint

/-- The next event, after which the process runs again. There is no result if there would be
    a boost before that. -/
def Solo.next (σ : Solo) : Event → Option Solo
  | .timer =>
    if σ.x.onTimer.2 = false ∨ σ.t + 1 < 100 then some { σ with x := σ.x.onTimer.1, t := σ.t + 1 } else none
  | .yield =>
    match σ.p with
    | .user => some { σ with i := σ.i + 1, p := if (σ.i + 1) % 20 = 0 then .tick else .giveUp false }
    | .tick => some { σ with t := σ.t + 1, p := .quantum }
    | .quantum => some { σ with x := { σ.x with pticks := σ.x.pticks + 1 }, p := .total }
    | .total => some { σ with x := { σ.x with ptotalticks := σ.x.ptotalticks + 1 }, p := .giveUp true }
    | .giveUp _ => if σ.t < 100 then some { σ with p := .user } else none

/-- The next event, if it is allowed. -/
def Solo.step (ok : Solo → Event → Bool) (σ : Solo) (e : Event) : Option Solo := if ok σ e then σ.next e else none

/-- The first process when it is first chosen. -/
def Solo.first (stack dir : Page) : Solo := ⟨{ Proc.init stack dir with state := .running }, 0, 0, .user⟩

/-- The process runs and follows MLFQ scheduling. -/
structure Busy (x : Proc) : Prop where
  isMLFQ : x.isMLFQ = true
  running : x.state = .running
  priority : x.priority ≤ 2

theorem Busy.ready (h : Busy x) : Ready { x with state := .runnable } := ⟨h.isMLFQ, rfl, h.priority⟩

theorem Busy.running_eq (h : Busy x) : { x with state := .running } = x := by
  rw [← h.running]

theorem Busy.onTimer (h : Busy x) : Busy x.onTimer.1 := by
  unfold Proc.onTimer Proc.mlfqCheck
  rw [if_pos h.isMLFQ]
  dsimp only
  split
  · split
    · next hallot => exact ⟨h.isMLFQ, h.running, hallot.1⟩
    · exact ⟨h.isMLFQ, h.running, h.priority⟩
  · exact ⟨h.isMLFQ, h.running, h.priority⟩

theorem Alone.timer_eq (h : Alone stack dir root m x t i p) (hx : x.isMLFQ = true) (back : Option (Nat × Scan)) :
    m.timer 0 back = if x.onTimer.2 then leave { m with kernel := soloTable stack dir root x.onTimer.1 (t + 1) } 0 back
      else { m with kernel := soloTable stack dir root x.onTimer.1 (t + 1) } := by
  have hproc : m.kernel.proc 0 = x := by rw [h.kernel]; rfl
  have hupd : Kernel.upd { soloTable stack dir root x t with mlfqTicks := t + 1 } 0 (fun x => x.onTimer.1) =
      soloTable stack dir root x.onTimer.1 (t + 1) := @soloTable_upd stack dir root x (t + 1) _
  unfold Clock.timer
  dsimp only
  rw [hproc, if_pos hx, h.kernel]
  exact congrArg (fun s => if x.onTimer.2 = true then leave { m with kernel := s } 0 back else { m with kernel := s }) hupd

/-- The process loses the CPU. -/
theorem Alone.timer_leaves (h : Alone stack dir root m x t i p) (hx : x.isMLFQ = true) (hleaves : x.onTimer.2 = true)
    (back : Option (Nat × Scan)) :
    Alone stack dir root (m.timer 0 back) { x.onTimer.1 with state := .runnable } (t + 1) i p ∧
      (m.timer 0 back).ctl = resume back := by
  rw [h.timer_eq hx, if_pos hleaves]
  refine ⟨⟨?_, h.yields, h.point⟩, rfl⟩
  dsimp only [leave]
  rw [soloTable_upd]

section Events

variable (hsched : ∀ m, Ok m .sched)
include hsched

/-- The process has given up the CPU and gets it again. -/
theorem Active.again (h : Active stack dir root m x t i p) (hx : Busy x) (ht : t < 100) {c : Nat × Scan}
    (hctl : m.ctl = .running 0 (some c)) :
    ∃ n, Run Ok (m.leave 0 (some c)) n ∧ Active stack dir root n x t i p := by
  obtain ⟨l, hl, hrun⟩ := h.running
  obtain rfl : (l, past 1) = c := by
    rw [hctl] at hrun
    exact (Option.some.inj (Control.running.inj hrun).2).symm
  have hleft : Alone stack dir root (m.leave 0 (some (l, past 1))) { x with state := .runnable } t i p := by
    refine ⟨?_, h.yields, h.point⟩
    dsimp only [leave]
    rw [h.kernel, soloTable_upd]
  obtain ⟨n, hn, hactive⟩ := hleft.back hsched ht hx.ready (by decide) hl rfl fun h0 => absurd h0 Nat.one_ne_zero
  refine ⟨n, hn, ?_⟩
  rw [← hx.running_eq]
  exact hactive

theorem Active.timer (h : Active stack dir root m x t i p) (hx : Busy x)
    (ht : x.onTimer.2 = false ∨ t + 1 < 100) (hok : Ok m .timer) :
    ∃ n, Run Ok m n ∧ Active stack dir root n x.onTimer.1 (t + 1) i p := by
  obtain ⟨l, hl, hctl⟩ := h.running
  have hstep : Run Ok m (m.timer 0 (some (l, past 1))) := .step .refl hok (.timer hctl)
  let n : Clock := { m with kernel := soloTable stack dir root x.onTimer.1 (t + 1) }
  have hn : Active stack dir root n x.onTimer.1 (t + 1) i p := ⟨⟨rfl, h.yields, h.point⟩, l, hl, hctl⟩
  have heq : m.timer 0 (some (l, past 1)) = if x.onTimer.2 then n.leave 0 (some (l, past 1)) else n :=
    h.timer_eq hx.isMLFQ _
  cases hy : x.onTimer.2 with
  | false =>
    refine ⟨n, ?_, hn⟩
    rw [heq, hy] at hstep
    exact hstep
  | true =>
    obtain ⟨k, hk, hactive⟩ := hn.again hsched hx.onTimer (ht.resolve_left (by rw [hy]; decide)) hctl
    rw [heq, hy] at hstep
    exact ⟨k, hstep.trans hk, hactive⟩

theorem Active.yield (h : Active stack dir root m x t i p) (hx : Busy x) {τ : Solo}
    (hnext : Solo.next ⟨x, t, i, p⟩ .yield = some τ) (hok : Ok m .yield) :
    Busy τ.x ∧ ∃ n, Run Ok m n ∧ Active stack dir root n τ.x τ.t τ.i τ.p := by
  obtain ⟨l, hl, hctl⟩ := h.running
  have hstep : Run Ok m (m.sysYield 0 (some (l, past 1))) := .step .refl hok (.yield hctl)
  have hpoint := h.point
  unfold sysYield at hstep
  rw [hpoint] at hstep
  clear hpoint
  unfold Solo.next at hnext
  cases p with
  | user =>
    obtain rfl := Option.some.inj hnext
    dsimp only at hstep
    rw [h.yields] at hstep
    exact ⟨hx, _, hstep, ⟨⟨h.kernel, rfl, setPoint_same⟩, l, hl, hctl⟩⟩
  | tick =>
    obtain rfl := Option.some.inj hnext
    refine ⟨hx, _, hstep, ⟨⟨?_, h.yields, setPoint_same⟩, l, hl, hctl⟩⟩
    dsimp only [setPoint]
    rw [h.kernel]
    rfl
  | quantum =>
    obtain rfl := Option.some.inj hnext
    refine ⟨⟨hx.isMLFQ, hx.running, hx.priority⟩, _, hstep, ⟨⟨?_, h.yields, setPoint_same⟩, l, hl, hctl⟩⟩
    dsimp only [setPoint]
    rw [h.kernel, soloTable_upd]
  | total =>
    obtain rfl := Option.some.inj hnext
    refine ⟨⟨hx.isMLFQ, hx.running, hx.priority⟩, _, hstep, ⟨⟨?_, h.yields, setPoint_same⟩, l, hl, hctl⟩⟩
    dsimp only [setPoint]
    rw [h.kernel, soloTable_upd]
  | giveUp charged =>
    simp only [Option.ite_none_right_eq_some, Option.some.injEq] at hnext
    obtain ⟨ht, rfl⟩ := hnext
    have hmoved : Active stack dir root (m.setPoint 0 .user) x t i .user :=
      ⟨⟨h.kernel, h.yields, setPoint_same⟩, l, hl, hctl⟩
    obtain ⟨n, hn, hactive⟩ := hmoved.again hsched hx ht hctl
    exact ⟨hx, n, hstep.trans hn, hactive⟩

/-- The events of a run, each of them allowed. -/
theorem Active.events {ok : Solo → Event → Bool}
    (hok : ∀ {m x t i p e}, Active stack dir root m x t i p → ok ⟨x, t, i, p⟩ e = true → Ok m e.act)
    (h : Active stack dir root m x t i p) (hx : Busy x) {events : List Event} {τ : Solo}
    (hplay : events.foldlM (Solo.step ok) ⟨x, t, i, p⟩ = some τ) :
    Busy τ.x ∧ ∃ n, Run Ok m n ∧ Active stack dir root n τ.x τ.t τ.i τ.p := by
  induction events generalizing m x t i p with
  | nil =>
    obtain rfl := Option.some.inj hplay
    exact ⟨hx, m, .refl, h⟩
  | cons e events ih =>
    rw [List.foldlM_cons, Option.bind_eq_bind, Option.bind_eq_some_iff] at hplay
    obtain ⟨σ, hσ, hplay⟩ := hplay
    obtain ⟨hallowed, hσ⟩ := Option.ite_none_right_eq_some.mp hσ
    have hm := hok h hallowed
    have hfirst : Busy σ.x ∧ ∃ n, Run Ok m n ∧ Active stack dir root n σ.x σ.t σ.i σ.p := by
      cases e with
      | timer =>
        simp only [Solo.next, Option.ite_none_right_eq_some, Option.some.injEq] at hσ
        obtain ⟨ht, rfl⟩ := hσ
        exact ⟨hx.onTimer, h.timer hsched hx ht hm⟩
      | yield => exact h.yield hsched hx hσ hm
    obtain ⟨hbusy, n, hn, hactive⟩ := hfirst
    obtain ⟨hbusy, k, hk, hactive⟩ := ih hactive hbusy hplay
    exact ⟨hbusy, k, hn.trans hk, hactive⟩

theorem exists_run_of_events {ok : Solo → Event → Bool}
    (hok : ∀ {m x t i p e}, Active stack dir root m x t i p → ok ⟨x, t, i, p⟩ e = true → Ok m e.act)
    {events : List Event} {τ : Solo} (hplay : events.foldlM (Solo.step ok) (Solo.first stack dir) = some τ) :
    ∃ n, Run Ok (start stack dir root) n ∧ Active stack dir root n τ.x τ.t τ.i τ.p := by
  have halone : Alone stack dir root (start stack dir root) (Proc.init stack dir) 0 0 .user := ⟨rfl, rfl, rfl⟩
  obtain ⟨n, hn, hactive⟩ := halone.loop hsched (by decide) ⟨rfl, rfl, Nat.zero_le 2⟩ rfl
  obtain ⟨-, k, hk, hactive⟩ := hactive.events hsched hok ⟨rfl, rfl, Nat.zero_le 2⟩ hplay
  exact ⟨k, hn.trans hk, hactive⟩

end Events

end Clock

end Xv6
