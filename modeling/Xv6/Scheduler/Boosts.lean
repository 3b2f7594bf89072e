-- SUMMARY: How many ticks are counted before the priorities are boosted.
import Xv6.Scheduler.Solo

/-! # Priority boosts come on time

The scheduler looks at `MLFQ_ticks` before each switch, so that a process starts to run
with less than 100 ticks counted. A process in the last level may use four more before
it gives up the CPU, as `pticks` tells. A tick charged by `sys_yield` is the last one of
the process, unless the timer strikes before `yield`: then there may be one more.
-/

namespace Xv6

/-! ## What steps do -/

theorem Proc.SameTiming.refl (x : Proc) : x.SameTiming x := ⟨rfl, rfl, rfl, id⟩

theorem Proc.SameTiming.trans {x y z : Proc} (h : x.SameTiming y) (h' : y.SameTiming z) : x.SameTiming z :=
  ⟨h'.priority.trans h.priority, h'.pticks.trans h.pticks, h'.ptotalticks.trans h.ptotalticks, h.isMLFQ ∘ h'.isMLFQ⟩

theorem Proc.Fresh.of_same {x y : Proc} (h : x.Fresh) (h' : x.SameTiming y) : y.Fresh :=
  ⟨h'.priority.trans h.priority, h'.pticks.trans h.pticks, h'.ptotalticks.trans h.ptotalticks⟩

namespace Kernel

variable {s : Kernel} {q c : Slot}

/-- Only the state, the pass value and such of a process change. -/
theorem upd_sameTiming {f : Proc → Proc} (hf : (s.proc c).SameTiming (f (s.proc c))) :
    (s.proc q).SameTiming ((s.upd c f).proc q) := by
  by_cases hq : q = c
  · subst hq
    rwa [upd_proc_same]
  · rw [upd_proc_ne _ _ hq]
    exact .refl _

theorem dispatch_sameTiming : (s.proc q).SameTiming ((s.dispatch c).proc q) := upd_sameTiming ⟨rfl, rfl, rfl, id⟩

theorem strideSwitch_sameTiming : (s.proc q).SameTiming ((s.strideSwitch c).proc q) := by
  unfold strideSwitch
  exact (upd_sameTiming ⟨rfl, rfl, rfl, id⟩).trans dispatch_sameTiming

theorem addPass_proc {n : ℚ} : (s.addPass n).proc = s.proc := by
  unfold addPass
  split <;> rfl

theorem addPass_mlfqTicks {n : ℚ} : (s.addPass n).mlfqTicks = s.mlfqTicks := by
  unfold addPass
  split <;> rfl

/-- A boost sets the processes that follow MLFQ scheduling back. -/
theorem boostDue_slot : (s.proc q).SameTiming (s.boostDue.proc q) ∨ (s.boostDue.proc q).Fresh := by
  unfold boostDue
  split
  · rw [mlfqBoost_proc]
    split
    · exact .inr ⟨rfl, rfl, rfl⟩
    · exact .inl (.refl _)
  · exact .inl (.refl _)

end Kernel

/-- A turn of a scan boosts if need be, and may switch. -/
theorem Scan.turn_cases (l : Nat) (σ : Scan) (s : Kernel) :
    σ.turn l s = .over s ∨ σ.turn l s = .over s.boostDue ∨ (∃ σ', σ.turn l s = .pass σ' s.boostDue) ∨
    ∃ q σ', σ.turn l s = .switch q σ' ((s.boostDue.addPass (levelWeight l)).dispatch q) := by
  unfold Scan.turn
  by_cases hp : σ.p < NPROC
  · rw [dif_pos hp]
    dsimp only
    generalize (if σ.checkpoint % 63 = 0 then (0 : Slot) else ⟨σ.p, hp⟩) = q
    split
    · exact .inr (.inl rfl)
    · split
      · exact .inr (.inr (.inr ⟨q, _, rfl⟩))
      · exact .inr (.inr (.inl ⟨_, rfl⟩))
  · rw [dif_neg hp]
    exact .inl rfl

/-- A timer interrupt of a process that follows MLFQ scheduling: it goes on within its
    quantum, or it is over and with it perhaps the allotment. -/
theorem Proc.onTimer_cases {x : Proc} (h : x.isMLFQ = true) :
    (x.pticks + 1 < timeQuantumPerQ x.priority ∧
      x.onTimer = ({ x with pticks := x.pticks + 1, ptotalticks := x.ptotalticks + 1 }, false)) ∨
    (x.priority < 2 ∧ x.onTimer = ({ x with pticks := 0, ptotalticks := 0, priority := x.priority + 1 }, true)) ∨
    (timeQuantumPerQ x.priority ≤ x.pticks + 1 ∧
      (x.priority < 2 → x.ptotalticks + 1 < timeAllotmentPerQ x.priority) ∧
      x.onTimer = ({ x with pticks := 0, ptotalticks := x.ptotalticks + 1 }, true)) := by
  unfold onTimer mlfqCheck
  rw [if_pos h]
  dsimp only
  split
  · next hquantum =>
    split
    · next hallot => exact .inr (.inl ⟨hallot.1, rfl⟩)
    · next hallot => exact .inr (.inr ⟨hquantum, fun hp => not_le.mp fun hle => hallot ⟨hp, hle⟩, rfl⟩)
  · next hquantum => exact .inl ⟨not_le.mp hquantum, rfl⟩

/-- A quantum has at most four ticks. -/
theorem timeQuantumPerQ_le (l : Nat) : timeQuantumPerQ l ≤ 4 := by
  unfold timeQuantumPerQ
  split <;> decide

namespace Clock

variable {m n : Clock} {a : Act} {c q : Slot} {back : Option (Nat × Scan)}

/-- A process runs. -/
def Runs (m : Clock) (c : Slot) : Prop := ∃ back, m.ctl = .running c back

theorem Runs.eq (h : m.Runs c) (h' : m.Runs q) : q = c := by
  obtain ⟨b, h⟩ := h
  obtain ⟨b', h'⟩ := h'
  rw [h] at h'
  exact (Control.running.inj h').1.symm

theorem not_runs_resume (hn : n.ctl = resume back) : ¬ n.Runs q := by
  rintro ⟨b, hb⟩
  rw [hn] at hb
  cases back <;> exact Control.noConfusion hb

/-- The scheduler goes on without a switch, perhaps with a boost, or switches. -/
theorem sched_cases (h : ∀ c back, m.ctl ≠ .running c back) :
    (m.sched.kernel.proc = m.kernel.proc ∧ m.sched.kernel.mlfqTicks = m.kernel.mlfqTicks ∧ (∀ c, ¬ m.sched.Runs c) ∧
      m.sched.ctl ≠ .pick) ∨
    (m.sched.kernel.proc = m.kernel.boostDue.proc ∧ m.sched.kernel.mlfqTicks = m.kernel.boostDue.mlfqTicks ∧
      ∀ c, ¬ m.sched.Runs c) ∨
    (m.ctl = .pick ∧ ∃ q, m.sched.kernel = m.kernel.strideSwitch q ∧ m.sched.ctl = .running q none) ∨
    ∃ n l q σ', m.sched.kernel = (m.kernel.boostDue.addPass n).dispatch q ∧ m.sched.ctl = .running q (some (l, σ')) := by
  unfold sched
  cases hctl : m.ctl with
  | loop => exact .inr (.inl ⟨rfl, rfl, fun _ ⟨_, hb⟩ => Control.noConfusion hb⟩)
  | pick =>
    dsimp only
    split
    · exact .inl ⟨rfl, rfl, fun _ ⟨_, hb⟩ => Control.noConfusion hb, Control.noConfusion⟩
    · split
      · exact .inl ⟨rfl, rfl, fun _ ⟨_, hb⟩ => Control.noConfusion hb, Control.noConfusion⟩
      · next q _ => exact .inr (.inr (.inl ⟨rfl, q, rfl, rfl⟩))
  | running c back => exact absurd hctl (h c back)
  | scan l σ =>
    dsimp only
    rcases Scan.turn_cases l σ m.kernel with hs | hs | ⟨σ', hs⟩ | ⟨q, σ', hs⟩ <;> rw [hs] <;> dsimp only
    · split
      · exact .inl ⟨rfl, rfl, fun _ ⟨_, hb⟩ => Control.noConfusion hb, Control.noConfusion⟩
      · exact .inl ⟨Kernel.addPass_proc, Kernel.addPass_mlfqTicks, fun _ ⟨_, hb⟩ => Control.noConfusion hb,
          Control.noConfusion⟩
    · split
      · exact .inr (.inl ⟨rfl, rfl, fun _ ⟨_, hb⟩ => Control.noConfusion hb⟩)
      · exact .inr (.inl ⟨Kernel.addPass_proc, Kernel.addPass_mlfqTicks, fun _ ⟨_, hb⟩ => Control.noConfusion hb⟩)
    · exact .inr (.inl ⟨rfl, rfl, fun _ ⟨_, hb⟩ => Control.noConfusion hb⟩)
    · exact .inr (.inr (.inr ⟨_, l, q, σ', rfl, rfl⟩))

theorem sched_slot (h : ∀ c back, m.ctl ≠ .running c back) :
    (m.kernel.proc q).SameTiming (m.sched.kernel.proc q) ∨ (m.sched.kernel.proc q).Fresh := by
  rcases sched_cases h with ⟨hp, -⟩ | ⟨hp, -⟩ | ⟨-, c, hs, -⟩ | ⟨n, l, c, σ', hs, -⟩
  · rw [hp]
    exact .inl (.refl _)
  · rw [hp]
    exact Kernel.boostDue_slot
  · rw [hs]
    exact .inl Kernel.strideSwitch_sameTiming
  · have hpass : (m.kernel.boostDue.proc q).SameTiming (m.sched.kernel.proc q) := by
      rw [hs, ← @Kernel.addPass_proc m.kernel.boostDue n]
      exact Kernel.dispatch_sameTiming
    exact Kernel.boostDue_slot.imp (fun h => h.trans hpass) fun h => h.of_same hpass

/-- The scheduler counts no ticks, but may boost; it switches only with less than 100. -/
theorem sched_ticks (hpick : m.ctl = .pick → m.kernel.mlfqTicks < 100) (h : ∀ c back, m.ctl ≠ .running c back) :
    (m.sched.kernel.mlfqTicks = m.kernel.mlfqTicks ∨ m.sched.kernel.mlfqTicks = m.kernel.boostDue.mlfqTicks) ∧
    (m.sched.ctl = .pick ∨ m.sched.Runs c → m.sched.kernel.mlfqTicks < 100) := by
  rcases sched_cases h with ⟨-, ht, hruns, hp⟩ | ⟨-, ht, hruns⟩ | ⟨hctl, q, hs, -⟩ | ⟨n, l, q, σ', hs, -⟩
  · exact ⟨.inl ht, fun hor => (hor.elim hp (hruns c)).elim⟩
  · exact ⟨.inr ht, fun _ => ht ▸ Kernel.boostDue_mlfqTicks⟩
  · have ht : m.sched.kernel.mlfqTicks = m.kernel.mlfqTicks := by rw [hs]; rfl
    exact ⟨.inl ht, fun _ => ht ▸ hpick hctl⟩
  · have ht : m.sched.kernel.mlfqTicks = m.kernel.boostDue.mlfqTicks := by
      rw [hs]
      exact Kernel.addPass_mlfqTicks
    exact ⟨.inr ht, fun _ => ht ▸ Kernel.boostDue_mlfqTicks⟩

/-- The points are left alone by the scheduler. -/
theorem sched_point : m.sched.point = m.point := by
  unfold sched
  split
  · rfl
  · split
    · rfl
    · split <;> rfl
  · split
    · split <;> rfl
    · rfl
    · rfl
  · rfl

/-! ## Timer interrupts and sys_yield -/

theorem timer_other (hq : q ≠ c) : (m.timer c back).kernel.proc q = m.kernel.proc q := by
  unfold timer
  dsimp only
  split
  · unfold leave
    dsimp only
    rw [Kernel.upd_proc_ne _ _ hq, Kernel.upd_proc_ne _ _ hq]
  · dsimp only
    rw [Kernel.upd_proc_ne _ _ hq]

theorem timer_same : ((m.kernel.proc c).onTimer.1).SameTiming ((m.timer c back).kernel.proc c) := by
  unfold timer
  dsimp only
  split
  · unfold leave
    dsimp only
    rw [Kernel.upd_proc_same, Kernel.upd_proc_same]
    exact ⟨rfl, rfl, rfl, id⟩
  · rw [Kernel.upd_proc_same]
    exact .refl _

theorem timer_ticks : (m.timer c back).kernel.mlfqTicks =
    if (m.kernel.proc c).isMLFQ then m.kernel.mlfqTicks + 1 else m.kernel.mlfqTicks := by
  unfold timer
  dsimp only
  split <;> rfl

theorem timer_ctl : (m.timer c back).ctl = if (m.kernel.proc c).onTimer.2 then resume back else m.ctl := by
  unfold timer
  dsimp only
  split <;> rfl

theorem timer_point : (m.timer c back).point = m.point := by
  unfold timer
  dsimp only
  split <;> rfl

theorem sysYield_other (hq : q ≠ c) : (m.sysYield c back).kernel.proc q = m.kernel.proc q ∧
    (m.sysYield c back).point q = m.point q := by
  unfold sysYield
  cases m.point c with
  | user => exact ⟨rfl, Function.update_of_ne hq _ _⟩
  | tick => exact ⟨rfl, Function.update_of_ne hq _ _⟩
  | quantum => exact ⟨if_neg hq, Function.update_of_ne hq _ _⟩
  | total => exact ⟨if_neg hq, Function.update_of_ne hq _ _⟩
  | giveUp => exact ⟨if_neg hq, Function.update_of_ne hq _ _⟩

/-- The statements of `sys_yield`, one by one. -/
theorem sysYield_cases :
    (m.point c = .user ∧ (m.sysYield c back).kernel = m.kernel ∧ (m.sysYield c back).ctl = m.ctl ∧
      ((m.sysYield c back).point c = .tick ∨ (m.sysYield c back).point c = .giveUp false)) ∨
    (m.point c = .tick ∧ (m.sysYield c back).kernel = { m.kernel with mlfqTicks := m.kernel.mlfqTicks + 1 } ∧
      (m.sysYield c back).ctl = m.ctl ∧ (m.sysYield c back).point c = .quantum) ∨
    (m.point c = .quantum ∧ (m.sysYield c back).kernel = m.kernel.upd c (fun x => { x with pticks := x.pticks + 1 }) ∧
      (m.sysYield c back).ctl = m.ctl ∧ (m.sysYield c back).point c = .total) ∨
    (m.point c = .total ∧
      (m.sysYield c back).kernel = m.kernel.upd c (fun x => { x with ptotalticks := x.ptotalticks + 1 }) ∧
      (m.sysYield c back).ctl = m.ctl ∧ (m.sysYield c back).point c = .giveUp true) ∨
    ∃ charged, m.point c = .giveUp charged ∧
      (m.sysYield c back).kernel = m.kernel.upd c (fun x => { x with state := .runnable }) ∧
      (m.sysYield c back).ctl = resume back ∧ (m.sysYield c back).point c = .user := by
  unfold sysYield
  cases m.point c with
  | user =>
    refine .inl ⟨rfl, rfl, rfl, ?_⟩
    dsimp only [setPoint]
    rw [Function.update_self]
    split
    · exact .inl rfl
    · exact .inr rfl
  | tick => exact .inr (.inl ⟨rfl, rfl, rfl, Function.update_self _ _ _⟩)
  | quantum => exact .inr (.inr (.inl ⟨rfl, rfl, rfl, Function.update_self _ _ _⟩))
  | total => exact .inr (.inr (.inr (.inl ⟨rfl, rfl, rfl, Function.update_self _ _ _⟩)))
  | giveUp charged => exact .inr (.inr (.inr (.inr ⟨charged, rfl, rfl, rfl, Function.update_self _ _ _⟩)))

end Clock

/-- A tick is charged, and `yield` is not called yet. -/
def YieldPoint.Charging : YieldPoint → Prop
  | .user | .tick | .giveUp false => False
  | .quantum | .total | .giveUp true => True

instance (p : YieldPoint) : Decidable p.Charging := by
  unfold YieldPoint.Charging
  split <;> infer_instance

namespace Clock

variable {m n : Clock} {a : Act} {c q : Slot} {back : Option (Nat × Scan)}

/-- No timer interrupt comes between the charge of a tick in `sys_yield` and `yield`. -/
def Undisturbed (m : Clock) : Act → Prop
  | .timer => ∀ c, m.Runs c → ¬ (m.point c).Charging
  | _ => True

/-- Only the process that runs is being charged. -/
def Calm (m : Clock) : Prop := ∀ q, (m.point q).Charging → m.Runs q

theorem Calm.step (h : m.Calm) (hok : Undisturbed m a) (hstep : Step m a n) : n.Calm := by
  intro q hq
  cases hstep with
  | sched hctl =>
    rw [sched_point] at hq
    obtain ⟨b, hb⟩ := h q hq
    exact absurd hb (hctl q b)
  | timer hctl =>
    rw [timer_point] at hq
    exact absurd hq (hok q (h q hq))
  | @yield c back hctl =>
    by_cases hqc : q = c
    · subst hqc
      rcases @sysYield_cases m q back with ⟨-, -, -, hp⟩ | ⟨-, -, hc, -⟩ | ⟨-, -, hc, -⟩ | ⟨-, -, hc, -⟩ | ⟨-, -, -, -, hp⟩
      · rcases hp with hp | hp <;> rw [hp] at hq <;> exact hq.elim
      · exact ⟨back, hc.trans hctl⟩
      · exact ⟨back, hc.trans hctl⟩
      · exact ⟨back, hc.trans hctl⟩
      · rw [hp] at hq
        exact hq.elim
    · rw [(sysYield_other hqc).2] at hq
      exact absurd (Runs.eq ⟨back, hctl⟩ (h q hq)) hqc
  | other hchanged hctl =>
    rcases hchanged.slot q with ⟨-, hp⟩ | ⟨-, -, hp⟩ <;> rw [hp] at hq
    · obtain ⟨b, hb⟩ := h q hq
      exact ⟨b, hctl.trans hb⟩
    · exact hq.elim
  | @block _ c back hctl hpoint hchanged _ =>
    rcases hchanged.slot q with ⟨-, hp⟩ | ⟨-, -, hp⟩ <;> rw [hp] at hq
    · obtain rfl := Runs.eq ⟨back, hctl⟩ (h q hq)
      rw [hpoint] at hq
      exact hq.elim
    · exact hq.elim

/-! ## The bound -/

/-- How many ticks are counted, by what the process that runs has used of its quantum. -/
structure Timed (m : Clock) : Prop where
  calm : m.Calm
  pticks : ∀ q, 0 ≤ (m.kernel.proc q).pticks
  pick : m.ctl = .pick → m.kernel.mlfqTicks < 100
  bound : m.kernel.mlfqTicks ≤ 103
  running : ∀ c, m.Runs c → ¬ (m.point c).Charging → m.kernel.mlfqTicks ≤ 102 ∧
    ((m.kernel.proc c).isMLFQ = true → (m.kernel.mlfqTicks : Int) ≤ 99 + (m.kernel.proc c).pticks)

/-- Ticks used are never negative. -/
theorem pticks_of_slot {x y : Proc} (hx : 0 ≤ x.pticks) (h : x.SameTiming y ∨ y.Fresh) : 0 ≤ y.pticks := by
  rcases h with h | h
  · exact h.pticks ▸ hx
  · exact h.pticks.ge

theorem Changed.slot_or (h : m.Changed n) (q : Slot) :
    (m.kernel.proc q).SameTiming (n.kernel.proc q) ∨ (n.kernel.proc q).Fresh :=
  (h.slot q).imp And.left fun h => h.2.1

theorem Timed.sched (h : m.Timed) (hctl : ∀ c back, m.ctl ≠ .running c back) : m.sched.Timed where
  calm := Calm.step (a := .sched) h.calm trivial (.sched hctl)
  pticks := fun q => pticks_of_slot (h.pticks q) (sched_slot hctl)
  pick := fun hp => (@sched_ticks m 0 h.pick hctl).2 (.inl hp)
  bound := by
    rcases (@sched_ticks m 0 h.pick hctl).1 with ht | ht <;> rw [ht]
    · exact h.bound
    · exact Kernel.boostDue_mlfqTicks.le.trans (by decide)
  running := by
    intro c hc _
    have hlt := (sched_ticks h.pick hctl).2 (.inr hc)
    have hpos : 0 ≤ (m.sched.kernel.proc c).pticks := pticks_of_slot (h.pticks c) (sched_slot hctl)
    exact ⟨by omega, fun _ => by omega⟩

theorem Timed.timer (h : m.Timed) (hctl : m.ctl = .running c back) (hok : Undisturbed m .timer) :
    (m.timer c back).Timed := by
  have hruns : m.Runs c := ⟨back, hctl⟩
  obtain ⟨hle, hused⟩ := h.running c hruns (hok c hruns)
  have hgone : (m.kernel.proc c).onTimer.2 = true → (m.timer c back).ctl = resume back := by
    intro hy
    rw [timer_ctl, if_pos hy]
  have hnot : (m.timer c back).ctl = resume back → ∀ {P : Slot → Prop}, ∀ d, (m.timer c back).Runs d → P d :=
    fun hr _ d hd => absurd hd (not_runs_resume hr)
  have hcalm : (m.timer c back).Calm := h.calm.step hok (.timer hctl)
  have hpick : (m.timer c back).ctl ≠ .pick := by
    rw [timer_ctl]
    split
    · cases back <;> exact Control.noConfusion
    · rw [hctl]
      exact Control.noConfusion
  have hpticks : 0 ≤ (m.kernel.proc c).onTimer.1.pticks → ∀ q, 0 ≤ ((m.timer c back).kernel.proc q).pticks := by
    intro hc q
    by_cases hq : q = c
    · subst hq
      exact timer_same.pticks ▸ hc
    · rw [timer_other hq]
      exact h.pticks q
  have hpos := h.pticks c
  cases hmlfq : (m.kernel.proc c).isMLFQ with
  | false =>
    have heq : (m.kernel.proc c).onTimer = (m.kernel.proc c, true) := by
      unfold Proc.onTimer
      rw [if_neg (by rw [hmlfq]; decide)]
    have hticks : (m.timer c back).kernel.mlfqTicks = m.kernel.mlfqTicks := by
      rw [timer_ticks, if_neg (by rw [hmlfq]; decide)]
    have hback := hgone (by rw [heq])
    refine ⟨hcalm, hpticks (by rwa [heq]), fun hp => absurd hp hpick, hticks ▸ h.bound, fun d hd => ?_⟩
    exact absurd hd (not_runs_resume hback)
  | true =>
    have hticks : (m.timer c back).kernel.mlfqTicks = m.kernel.mlfqTicks + 1 := by
      rw [timer_ticks, if_pos hmlfq]
    have hbound : (m.timer c back).kernel.mlfqTicks ≤ 103 := by omega
    rcases Proc.onTimer_cases hmlfq with ⟨hquantum, heq⟩ | ⟨-, heq⟩ | ⟨-, -, heq⟩
    · -- The quantum is not over: at most three ticks of it are used.
      have hfour := timeQuantumPerQ_le (m.kernel.proc c).priority
      refine ⟨hcalm, hpticks (by rw [heq]; exact Int.le_add_one hpos), fun hp => absurd hp hpick, hbound, ?_⟩
      intro d hd _
      have hrun : (m.timer c back).ctl = .running c back := by
        rw [timer_ctl, heq]
        exact hctl
      obtain rfl := Runs.eq ⟨back, hrun⟩ hd
      have hp : ((m.timer d back).kernel.proc d).pticks = (m.kernel.proc d).pticks + 1 := by
        rw [timer_same.pticks, heq]
      have hfew := hused hmlfq
      exact ⟨by omega, fun _ => by omega⟩
    · have hback := hgone (by rw [heq])
      exact ⟨hcalm, hpticks (by rw [heq]), fun hp => absurd hp hpick, hbound,
        fun d hd => absurd hd (not_runs_resume hback)⟩
    · have hback := hgone (by rw [heq])
      exact ⟨hcalm, hpticks (by rw [heq]), fun hp => absurd hp hpick, hbound,
        fun d hd => absurd hd (not_runs_resume hback)⟩

theorem Timed.sysYield (h : m.Timed) (hctl : m.ctl = .running c back) : (m.sysYield c back).Timed := by
  have hruns : m.Runs c := ⟨back, hctl⟩
  have hcalm : (m.sysYield c back).Calm :=
    Calm.step (a := .yield) h.calm trivial (.yield hctl)
  have hpticks : 0 ≤ ((m.sysYield c back).kernel.proc c).pticks → ∀ q, 0 ≤ ((m.sysYield c back).kernel.proc q).pticks := by
    intro hc q
    by_cases hq : q = c
    · exact hq ▸ hc
    · rw [(sysYield_other hq).1]
      exact h.pticks q
  have hstay : (m.sysYield c back).ctl = m.ctl → ∀ {d}, (m.sysYield c back).Runs d → d = c :=
    fun hs d hd => Runs.eq ⟨back, hs.trans hctl⟩ hd
  have hpick : (m.sysYield c back).ctl = m.ctl → (m.sysYield c back).ctl ≠ .pick := by
    intro hs
    rw [hs, hctl]
    exact Control.noConfusion
  have hpos := h.pticks c
  rcases @sysYield_cases m c back with ⟨hp, hk, hs, hp'⟩ | ⟨hp, hk, hs, hp'⟩ | ⟨hp, hk, hs, hp'⟩ | ⟨hp, hk, hs, hp'⟩ |
    ⟨charged, hp, hk, hs, hp'⟩
  · refine ⟨hcalm, hpticks (by rwa [hk]), fun h => absurd h (hpick hs), hk ▸ h.bound, ?_⟩
    intro d hd _
    obtain rfl := hstay hs hd
    rw [hk]
    exact h.running d hruns (by rw [hp]; exact fun hf => hf)
  · have hle := (h.running c hruns (by rw [hp]; exact fun hf => hf)).1
    have hticks : (m.sysYield c back).kernel.mlfqTicks = m.kernel.mlfqTicks + 1 := by rw [hk]
    refine ⟨hcalm, hpticks (by rwa [hk]), fun h => absurd h (hpick hs), by omega, ?_⟩
    intro d hd hnot
    obtain rfl := hstay hs hd
    exact absurd (by rw [hp']; trivial) hnot
  · have hsame : ((m.sysYield c back).kernel.proc c).pticks = (m.kernel.proc c).pticks + 1 := by
      rw [hk, Kernel.upd_proc_same]
    refine ⟨hcalm, hpticks (hsame ▸ Int.le_add_one hpos), fun h => absurd h (hpick hs), ?_, ?_⟩
    · rw [hk]
      exact h.bound
    · intro d hd hnot
      obtain rfl := hstay hs hd
      exact absurd (by rw [hp']; trivial) hnot
  · have hsame : ((m.sysYield c back).kernel.proc c).pticks = (m.kernel.proc c).pticks := by
      rw [hk, Kernel.upd_proc_same]
    refine ⟨hcalm, hpticks (hsame ▸ hpos), fun h => absurd h (hpick hs), ?_, ?_⟩
    · rw [hk]
      exact h.bound
    · intro d hd hnot
      obtain rfl := hstay hs hd
      exact absurd (by rw [hp']; trivial) hnot
  · have hsame : ((m.sysYield c back).kernel.proc c).pticks = (m.kernel.proc c).pticks := by
      rw [hk, Kernel.upd_proc_same]
    refine ⟨hcalm, hpticks (hsame ▸ hpos), ?_, ?_, fun d hd => absurd hd (not_runs_resume hs)⟩
    · rw [hs]
      cases back <;> exact Control.noConfusion
    · rw [hk]
      exact h.bound

theorem Timed.step (h : m.Timed) (hok : Undisturbed m a) (hstep : Step m a n) : n.Timed := by
  have hcalm := h.calm.step hok hstep
  cases hstep with
  | sched hctl => exact h.sched hctl
  | timer hctl => exact h.timer hctl hok
  | yield hctl => exact h.sysYield hctl
  | other hchanged hctl =>
    refine ⟨hcalm, fun q => pticks_of_slot (h.pticks q) (hchanged.slot_or q), ?_, hchanged.ticks ▸ h.bound, ?_⟩
    · rw [hctl, hchanged.ticks]
      exact h.pick
    · intro c hc hnot
      obtain ⟨b, hb⟩ := hc
      rw [hctl] at hb
      rcases hchanged.slot c with ⟨hsame, hp⟩ | ⟨hidle, -⟩
      · rw [hp] at hnot
        obtain ⟨hle, hused⟩ := h.running c ⟨b, hb⟩ hnot
        rw [hchanged.ticks, hsame.pticks]
        exact ⟨hle, fun hmlfq => hused (hsame.isMLFQ hmlfq)⟩
      · exact absurd hb (hidle b)
  | @block _ c back hctl hpoint hchanged hback =>
    refine ⟨hcalm, fun q => pticks_of_slot (h.pticks q) (hchanged.slot_or q), ?_, hchanged.ticks ▸ h.bound,
      fun d hd => absurd hd (not_runs_resume hback)⟩
    rw [hback]
    cases back <;> exact Control.noConfusion

theorem Timed.start (stack dir : Page) (root : InodePtr) : (start stack dir root).Timed where
  calm := fun _ hq => hq.elim
  pticks := by
    intro q
    by_cases hq : q = 0
    · subst hq
      exact le_refl (0 : Int)
    · dsimp only [Clock.start]
      rw [boot_proc_ne hq]
      exact le_refl (0 : Int)
  pick := Control.noConfusion
  bound := Nat.zero_le 103
  running := fun _ hc => by
    obtain ⟨b, hb⟩ := hc
    exact Control.noConfusion hb

theorem Run.timed {stack dir : Page} {root : InodePtr} (h : Run Undisturbed (start stack dir root) m) : m.Timed := by
  induction h with
  | refl => exact Timed.start stack dir root
  | step _ hok hstep ih => exact ih.step hok hstep

/-- Before a boost at least 100 ticks are counted. A step that does not boost counts one at
    most. -/
theorem Step.ticks (hstep : Step m a n) :
    n.kernel.mlfqTicks = m.kernel.mlfqTicks ∨ n.kernel.mlfqTicks = m.kernel.mlfqTicks + 1 ∨
    (100 ≤ m.kernel.mlfqTicks ∧ n.kernel.mlfqTicks = 0 ∧ ∀ q, (n.kernel.proc q).isMLFQ = true → (n.kernel.proc q).Fresh) := by
  cases hstep with
  | sched hctl =>
    have hboost : ∀ {t : Kernel}, t.mlfqTicks = m.kernel.boostDue.mlfqTicks →
        (∀ q, (m.kernel.boostDue.proc q).SameTiming (t.proc q)) →
        t.mlfqTicks = m.kernel.mlfqTicks ∨ t.mlfqTicks = m.kernel.mlfqTicks + 1 ∨
        (100 ≤ m.kernel.mlfqTicks ∧ t.mlfqTicks = 0 ∧ ∀ q, (t.proc q).isMLFQ = true → (t.proc q).Fresh) := by
      intro t ht hsame
      by_cases hdue : 100 ≤ m.kernel.mlfqTicks
      · have heq : m.kernel.boostDue = m.kernel.mlfqBoost := if_pos hdue
        refine .inr (.inr ⟨hdue, by rw [ht, heq, Kernel.mlfqBoost_mlfqTicks], fun q hq => ?_⟩)
        have hold := (hsame q).isMLFQ hq
        refine Proc.Fresh.of_same ?_ (hsame q)
        rw [heq, Kernel.mlfqBoost_proc] at hold ⊢
        split at hold
        · next hmlfq =>
          rw [if_pos hmlfq]
          exact ⟨rfl, rfl, rfl⟩
        · next hmlfq => exact absurd hold hmlfq
      · refine .inl (ht.trans ?_)
        rw [show m.kernel.boostDue = m.kernel from if_neg hdue]
    rcases sched_cases hctl with ⟨-, ht, -⟩ | ⟨hp, ht, -⟩ | ⟨-, q, hs, -⟩ | ⟨r, l, q, σ', hs, -⟩
    · exact .inl ht
    · refine hboost ht fun q => ?_
      rw [hp]
      exact .refl _
    · rw [hs]
      exact .inl rfl
    · rw [hs]
      refine hboost Kernel.addPass_mlfqTicks fun p => ?_
      rw [← @Kernel.addPass_proc m.kernel.boostDue r]
      exact Kernel.dispatch_sameTiming
  | timer hctl =>
    rw [timer_ticks]
    split
    · exact .inr (.inl rfl)
    · exact .inl rfl
  | @yield c back hctl =>
    rcases @sysYield_cases m c back with ⟨-, hk, -⟩ | ⟨-, hk, -⟩ | ⟨-, hk, -⟩ | ⟨-, hk, -⟩ | ⟨-, -, hk, -⟩ <;> rw [hk]
    · exact .inl rfl
    · exact .inr (.inl rfl)
    · exact .inl rfl
    · exact .inl rfl
    · exact .inl rfl
  | other hchanged => exact .inl hchanged.ticks
  | block _ _ hchanged => exact .inl hchanged.ticks

/-- Only the scheduler makes a process run. -/
theorem Timed.dispatch (h : m.Timed) (hstep : Step m a n) (hm : ¬ m.Runs c) (hn : n.Runs c) :
    n.kernel.mlfqTicks < 100 := by
  cases hstep with
  | sched hctl => exact (sched_ticks h.pick hctl).2 (.inr hn)
  | @timer d back hctl =>
    obtain ⟨b, hb⟩ := hn
    rw [timer_ctl] at hb
    split at hb
    · cases back <;> exact Control.noConfusion hb
    · exact absurd ⟨b, hb⟩ hm
  | @yield d back hctl =>
    rcases @sysYield_cases m d back with ⟨-, -, hs, -⟩ | ⟨-, -, hs, -⟩ | ⟨-, -, hs, -⟩ | ⟨-, -, hs, -⟩ | ⟨-, -, -, hs, -⟩
    · exact absurd (hn.imp fun _ hb => hs.symm.trans hb) hm
    · exact absurd (hn.imp fun _ hb => hs.symm.trans hb) hm
    · exact absurd (hn.imp fun _ hb => hs.symm.trans hb) hm
    · exact absurd (hn.imp fun _ hb => hs.symm.trans hb) hm
    · exact absurd hn (not_runs_resume hs)
  | other _ hctl => exact absurd (hn.imp fun _ hb => hctl.symm.trans hb) hm
  | block _ _ _ hback => exact absurd hn (not_runs_resume hback)

/-- As long as no timer interrupt comes between a charge in `sys_yield` and `yield`, at most
    103 ticks are counted, a process is chosen only with less than 100, and ticks are counted
    one by one until a boost sets all processes that follow MLFQ scheduling back. -/
theorem boost_on_time {stack dir : Page} {root : InodePtr} (h : Run Undisturbed (start stack dir root) m) :
    m.kernel.mlfqTicks ≤ 103 ∧
    (∀ a n c, Step m a n → ¬ m.Runs c → n.Runs c → n.kernel.mlfqTicks < 100) ∧
    (∀ a n, Step m a n → n.kernel.mlfqTicks = m.kernel.mlfqTicks ∨ n.kernel.mlfqTicks = m.kernel.mlfqTicks + 1 ∨
      (100 ≤ m.kernel.mlfqTicks ∧ n.kernel.mlfqTicks = 0 ∧
        ∀ q, (n.kernel.proc q).isMLFQ = true → (n.kernel.proc q).Fresh)) :=
  ⟨h.timed.bound, fun _ _ _ => h.timed.dispatch, fun _ _ => Step.ticks⟩

theorem Active.runs_eq {stack dir : Page} {root : InodePtr} {x : Proc} {t i : Nat} {p : YieldPoint}
    (h : Active stack dir root m x t i p) (hc : m.Runs c) : c = 0 := by
  obtain ⟨l, -, hctl⟩ := h.running
  exact Runs.eq ⟨_, hctl⟩ hc

/-- `Undisturbed`, with one process. -/
def Solo.undisturbed (σ : Solo) (e : Event) : Bool := decide (e = .timer → ¬ σ.p.Charging)

theorem Active.undisturbed {stack dir : Page} {root : InodePtr} {x : Proc} {t i : Nat} {p : YieldPoint} {e : Event}
    (h : Active stack dir root m x t i p) (hok : Solo.undisturbed ⟨x, t, i, p⟩ e = true) : Undisturbed m e.act := by
  cases e with
  | timer =>
    intro c hc
    rw [h.runs_eq hc, h.point]
    exact of_decide_eq_true hok rfl
  | yield => trivial

/-- The first process uses up 103 ticks, the last four of them in one quantum, and is set back. -/
theorem boost_on_time_boosted : ∃ m n, Run Undisturbed (start 0 1 0) m ∧ m.kernel.mlfqTicks = 103 ∧
    (m.kernel.proc 0).priority = 2 ∧ Step m .sched n ∧ n.kernel.mlfqTicks = 0 ∧ (n.kernel.proc 0).isMLFQ = true ∧
    (n.kernel.proc 0).Fresh := by
  have hplay : ((List.replicate 102 Event.timer).foldlM (Solo.step Solo.undisturbed) (Solo.first 0 1)).any (fun τ =>
      τ.t = 102 ∧ τ.x.isMLFQ = true ∧ τ.x.onTimer.2 = true ∧ τ.x.onTimer.1.isMLFQ = true ∧ τ.x.onTimer.1.priority = 2 ∧
      Solo.undisturbed τ .timer = true) = true := by
    decide +kernel
  obtain ⟨τ, hτ, hlast⟩ := (Option.any_eq_true _ _).mp hplay
  obtain ⟨ht, hmlfq, hleaves, hmlfq', hpriority, hok⟩ := of_decide_eq_true hlast
  obtain ⟨k, hk, hactive⟩ := @exists_run_of_events Undisturbed 0 1 0 (fun _ => trivial) _ Active.undisturbed _ _ hτ
  obtain ⟨l, -, hctl⟩ := hactive.running
  have hm : Run Undisturbed (start 0 1 0) (k.timer 0 (some (l, past 1))) :=
    .step hk (hactive.undisturbed (e := .timer) hok) (.timer hctl)
  obtain ⟨halone, hscan⟩ := hactive.timer_leaves hmlfq hleaves (some (l, past 1))
  have hticks : (k.timer 0 (some (l, past 1))).kernel.mlfqTicks = 103 := by
    rw [halone.kernel]
    exact congrArg (· + 1) ht
  have hboost := halone.scan_boost (by omega) hmlfq' hscan
  have hstep : Step (k.timer 0 (some (l, past 1))) .sched (k.timer 0 (some (l, past 1))).sched :=
    .sched (not_running_scan hscan)
  have hzero : (k.timer 0 (some (l, past 1))).sched.kernel.mlfqTicks = 0 := by rw [hboost.kernel]; rfl
  have hsame : ((k.timer 0 (some (l, past 1))).sched.kernel.proc 0).isMLFQ = true := by
    rw [hboost.kernel]
    exact hmlfq'
  refine ⟨_, _, hm, hticks, by rw [halone.kernel]; exact hpriority, hstep, hzero, hsame, ?_⟩
  rcases (boost_on_time hm).2.2 _ _ hstep with h | h | ⟨-, -, hfresh⟩
  · omega
  · omega
  · exact hfresh 0 hsame

/-- The first process calls `sys_yield` 19 times and uses up 99 ticks. Three ticks later it
    calls `sys_yield` once more, and `MLFQ_ticks` is counted up. -/
def lateTick : List Event :=
  List.replicate 38 .yield ++ List.replicate 102 .timer ++ [.yield, .yield]

/-- A timer interrupt comes before `pticks` is counted up, too: there are 104 ticks. -/
theorem boost_late : ∃ m n, Run Any (start 0 1 0) m ∧ Step m .timer n ∧ n.kernel.mlfqTicks = 104 := by
  have hplay : (lateTick.foldlM (Solo.step fun _ _ => true) (Solo.first 0 1)).any (fun τ =>
      τ.t = 103 ∧ τ.x.isMLFQ = true) = true := by
    decide +kernel
  obtain ⟨τ, hτ, hlast⟩ := (Option.any_eq_true _ _).mp hplay
  obtain ⟨ht, hmlfq⟩ := of_decide_eq_true hlast
  obtain ⟨m, hm, hactive⟩ := @exists_run_of_events Any 0 1 0 (fun _ => trivial) _ (fun _ _ => trivial) _ _ hτ
  obtain ⟨l, -, hctl⟩ := hactive.running
  refine ⟨m, _, hm, .timer hctl, ?_⟩
  have hproc : m.kernel.proc 0 = τ.x := by rw [hactive.kernel]; rfl
  rw [timer_ticks, hproc, if_pos hmlfq, hactive.kernel]
  exact congrArg (· + 1) ht

end Clock

end Xv6
