-- SUMMARY: When a process that has used up its time allotment leaves its level.
import Xv6.Scheduler.Boosts

/-! # Time allotment

`MLFQ_Check` looks at the allotment only when the quantum is used up, and only after a
timer interrupt. In level 1 a quantum has two ticks, so an allotment of ten is met at the
end of a quantum as long as ticks are charged in pairs. A tick that `sys_yield` charges
in the middle of a quantum breaks the pairs, and the last one of an allotment is charged
without a look.
-/

namespace Xv6

namespace Proc

/-- What a process has used of its allotment is in step with its quantum. -/
structure InStep (x : Proc) : Prop where
  pticks : 0 ≤ x.pticks
  first : x.priority = 0 → x.ptotalticks < 5
  second : x.priority = 1 → x.pticks ≤ 1 ∧ x.ptotalticks < 10 ∧ (x.ptotalticks + x.pticks) % 2 = 0

/-- One more tick may be charged without a look: in level 0 it is not the last one, and in
    level 1 it is the first one of a quantum. -/
structure Spare (x : Proc) : Prop where
  first : x.priority = 0 → x.ptotalticks < 4
  second : x.priority = 1 → x.pticks = 0

instance (x : Proc) : Decidable x.Spare :=
  decidable_of_iff ((x.priority = 0 → x.ptotalticks < 4) ∧ (x.priority = 1 → x.pticks = 0))
    ⟨fun h => ⟨h.1, h.2⟩, fun h => ⟨h.1, h.2⟩⟩

/-- `pticks` is counted up and `ptotalticks` is not. -/
structure Between (x : Proc) : Prop where
  pticks : 0 ≤ x.pticks
  first : x.priority = 0 → x.ptotalticks < 4
  second : x.priority = 1 → x.pticks = 1 ∧ x.ptotalticks < 10 ∧ x.ptotalticks % 2 = 0

variable {x y : Proc}

theorem InStep.of_same (h : x.InStep) (hs : x.SameTiming y) : y.InStep := by
  refine ⟨hs.pticks ▸ h.pticks, ?_, ?_⟩
  · rw [hs.priority, hs.ptotalticks]
    exact h.first
  · rw [hs.priority, hs.ptotalticks, hs.pticks]
    exact h.second

theorem Spare.of_same (h : x.Spare) (hs : x.SameTiming y) : y.Spare := by
  refine ⟨?_, ?_⟩
  · rw [hs.priority, hs.ptotalticks]
    exact h.first
  · rw [hs.priority, hs.pticks]
    exact h.second

theorem Between.of_same (h : x.Between) (hs : x.SameTiming y) : y.Between := by
  refine ⟨hs.pticks ▸ h.pticks, ?_, ?_⟩
  · rw [hs.priority, hs.ptotalticks]
    exact h.first
  · rw [hs.priority, hs.ptotalticks, hs.pticks]
    exact h.second

theorem Fresh.inStep (h : x.Fresh) : x.InStep := by
  obtain ⟨hp, hq, ht⟩ := h
  constructor <;> omega

theorem InStep.lt_allotment (h : x.InStep) (hp : x.priority < 2) : x.ptotalticks < timeAllotmentPerQ x.priority := by
  have hcases : x.priority = 0 ∨ x.priority = 1 := by omega
  rcases hcases with hp | hp <;> rw [hp]
  · exact h.first hp
  · exact (h.second hp).2.1

/-- A timer interrupt keeps it so. -/
theorem InStep.onTimer (h : x.InStep) (hx : x.isMLFQ = true) : x.onTimer.1.InStep := by
  obtain ⟨hpos, hfirst, hsecond⟩ := h
  rcases onTimer_cases hx with ⟨hquantum, heq⟩ | ⟨-, heq⟩ | ⟨hquantum, hallot, heq⟩ <;> rw [heq]
  · constructor <;> dsimp only
    · exact Int.le_add_one hpos
    · intro hp
      rw [hp] at hquantum
      exact absurd hquantum (not_lt.mpr (Int.le_add_of_nonneg_left hpos))
    · intro hp
      rw [hp] at hquantum
      have hlt : x.pticks + 1 < 2 := hquantum
      have := hsecond hp
      omega
  · constructor <;> dsimp only <;> omega
  · constructor <;> dsimp only
    · exact le_refl 0
    · intro hp
      have hlt := hallot (by omega)
      rw [hp] at hlt
      exact hlt
    · intro hp
      have hlt := hallot (by omega)
      rw [hp] at hlt hquantum
      have hlt : x.ptotalticks + 1 < 10 := hlt
      have hge : 2 ≤ x.pticks + 1 := hquantum
      have := hsecond hp
      omega

end Proc

/-- The process is in step with its quantum, at its point in `sys_yield`. -/
def YieldPoint.Sound : YieldPoint → Proc → Prop
  | .quantum, x => x.InStep ∧ x.Spare
  | .total, x => x.Between
  | _, x => x.InStep

theorem YieldPoint.Sound.of_same {p : YieldPoint} {x y : Proc} (h : p.Sound x) (hs : x.SameTiming y) : p.Sound y := by
  cases p with
  | quantum => exact ⟨h.1.of_same hs, h.2.of_same hs⟩
  | total => exact Proc.Between.of_same h hs
  | user => exact Proc.InStep.of_same h hs
  | tick => exact Proc.InStep.of_same h hs
  | giveUp _ => exact Proc.InStep.of_same h hs

/-- Where no tick is being charged. -/
theorem YieldPoint.sound_iff {p : YieldPoint} {x : Proc} (hp : ¬ p.Charging) : p.Sound x ↔ x.InStep := by
  cases p with
  | quantum => exact absurd trivial hp
  | total => exact absurd trivial hp
  | user => exact Iff.rfl
  | tick => exact Iff.rfl
  | giveUp _ => exact Iff.rfl

namespace Clock

variable {m n : Clock} {a : Act} {c q : Slot} {back : Option (Nat × Scan)}

/-- No timer interrupt comes between the charge of a tick in `sys_yield` and `yield`, and a
    process that follows MLFQ scheduling is charged there only if one more tick may be. -/
def Sparing (m : Clock) : Act → Prop
  | .yield => ∀ c, m.Runs c → m.point c = .tick → (m.kernel.proc c).isMLFQ = true → (m.kernel.proc c).Spare
  | a => Undisturbed m a

theorem Sparing.undisturbed (h : Sparing m a) : Undisturbed m a := by
  cases a with
  | yield => exact trivial
  | _ => exact h

structure Level (m : Clock) : Prop where
  calm : m.Calm
  priority : ∀ q, (m.kernel.proc q).priority ≤ 2
  sound : ∀ q, (m.kernel.proc q).isMLFQ = true → (m.point q).Sound (m.kernel.proc q)

/-- A process that runs on, or one that is set back. -/
theorem Level.slot (h : m.Level) {x : Proc} {p : YieldPoint} (hx : (m.kernel.proc q).SameTiming x ∨ x.Fresh)
    (hp : p = m.point q ∧ ((m.kernel.proc q).SameTiming x ∨ ¬ p.Charging) ∨ p = .user ∧ x.Fresh) :
    x.priority ≤ 2 ∧ (x.isMLFQ = true → p.Sound x) := by
  have hpriority : x.priority ≤ 2 := by
    rcases hx with hx | hx
    · exact hx.priority ▸ h.priority q
    · exact hx.priority ▸ Nat.zero_le 2
  refine ⟨hpriority, fun hmlfq => ?_⟩
  rcases hp with ⟨rfl, hs | hnot⟩ | ⟨rfl, hfresh⟩
  · exact (h.sound q (hs.isMLFQ hmlfq)).of_same hs
  · rcases hx with hx | hx
    · exact (h.sound q (hx.isMLFQ hmlfq)).of_same hx
    · exact (YieldPoint.sound_iff hnot).mpr hx.inStep
  · exact hfresh.inStep

theorem Level.sched (h : m.Level) (hctl : ∀ c back, m.ctl ≠ .running c back) : m.sched.Level := by
  have hall : ∀ q, (m.sched.kernel.proc q).priority ≤ 2 ∧
      ((m.sched.kernel.proc q).isMLFQ = true → (m.sched.point q).Sound (m.sched.kernel.proc q)) := by
    intro q
    rw [sched_point]
    refine h.slot (sched_slot hctl) (.inl ⟨rfl, .inr fun hcharging => ?_⟩)
    obtain ⟨b, hb⟩ := h.calm q hcharging
    exact hctl q b hb
  exact ⟨Calm.step (a := .sched) h.calm trivial (.sched hctl), fun q => (hall q).1, fun q => (hall q).2⟩

theorem Level.changed (h : m.Level) (hcalm : n.Calm) (hchanged : m.Changed n) : n.Level := by
  have hall : ∀ q, (n.kernel.proc q).priority ≤ 2 ∧
      ((n.kernel.proc q).isMLFQ = true → (n.point q).Sound (n.kernel.proc q)) := by
    intro q
    refine h.slot (hchanged.slot_or q) ?_
    rcases hchanged.slot q with ⟨hs, hp⟩ | ⟨-, hf, hp⟩
    · exact .inl ⟨hp, .inl hs⟩
    · exact .inr ⟨hp, hf⟩
  exact ⟨hcalm, fun q => (hall q).1, fun q => (hall q).2⟩

/-- One process changes, and the others stay. -/
theorem Level.one (h : m.Level) (hcalm : n.Calm)
    (hother : ∀ q, q ≠ c → n.kernel.proc q = m.kernel.proc q ∧ n.point q = m.point q)
    (hpriority : (n.kernel.proc c).priority ≤ 2)
    (hsound : (n.kernel.proc c).isMLFQ = true → (n.point c).Sound (n.kernel.proc c)) : n.Level := by
  refine ⟨hcalm, fun q => ?_, fun q => ?_⟩ <;> by_cases hq : q = c
  · exact hq ▸ hpriority
  · rw [(hother q hq).1]
    exact h.priority q
  · exact hq ▸ hsound
  · rw [(hother q hq).1, (hother q hq).2]
    exact h.sound q

theorem Level.timer (h : m.Level) (hctl : m.ctl = .running c back) (hok : Undisturbed m .timer) :
    (m.timer c back).Level := by
  have hnot : ¬ (m.point c).Charging := hok c ⟨back, hctl⟩
  refine h.one (c := c) (h.calm.step hok (.timer hctl)) (fun q hq => ⟨timer_other hq, by rw [timer_point]⟩) ?_ ?_
  · rw [timer_same.priority]
    cases hmlfq : (m.kernel.proc c).isMLFQ with
    | false =>
      unfold Proc.onTimer
      rw [if_neg (by rw [hmlfq]; decide)]
      exact h.priority c
    | true =>
      rcases Proc.onTimer_cases hmlfq with ⟨-, heq⟩ | ⟨hp, heq⟩ | ⟨-, -, heq⟩ <;> rw [heq]
      · exact h.priority c
      · exact hp
      · exact h.priority c
  · intro hafter
    rw [timer_point, YieldPoint.sound_iff hnot]
    have hmlfq : (m.kernel.proc c).isMLFQ = true := by
      by_contra hno
      have hafter := (@timer_same m c back).isMLFQ hafter
      unfold Proc.onTimer at hafter
      rw [if_neg hno] at hafter
      exact hno hafter
    have hin : (m.kernel.proc c).InStep := (YieldPoint.sound_iff hnot).mp (h.sound c hmlfq)
    exact (hin.onTimer hmlfq).of_same timer_same

theorem Level.sysYield (h : m.Level) (hctl : m.ctl = .running c back) (hok : Sparing m .yield) :
    (m.sysYield c back).Level := by
  have hruns : m.Runs c := ⟨back, hctl⟩
  refine h.one (c := c) (Calm.step (a := .yield) h.calm trivial (.yield hctl)) (fun q hq => sysYield_other hq) ?_ ?_
  · have hpriority := h.priority c
    rcases @sysYield_cases m c back with ⟨-, hk, -⟩ | ⟨-, hk, -⟩ | ⟨-, hk, -⟩ | ⟨-, hk, -⟩ | ⟨-, -, hk, -⟩ <;> rw [hk]
    · exact hpriority
    · exact hpriority
    · rwa [Kernel.upd_proc_same]
    · rwa [Kernel.upd_proc_same]
    · rwa [Kernel.upd_proc_same]
  · intro hafter
    have hsound := h.sound c
    rcases @sysYield_cases m c back with ⟨hp, hk, -, hp'⟩ | ⟨hp, hk, -, hp'⟩ | ⟨hp, hk, -, hp'⟩ | ⟨hp, hk, -, hp'⟩ |
      ⟨charged, hp, hk, -, hp'⟩ <;> rw [hp] at hsound <;> rw [hk] at hafter ⊢
    · have hin := hsound hafter
      rcases hp' with hp' | hp' <;> rw [hp'] <;> exact hin
    · rw [hp']
      exact ⟨hsound hafter, hok c hruns hp hafter⟩
    · -- `pticks` is counted up.
      rw [Kernel.upd_proc_same] at hafter ⊢
      rw [hp']
      obtain ⟨⟨hpos, hfirst, hsecond⟩, hspare⟩ := hsound hafter
      refine ⟨Int.le_add_one hpos, hspare.first, fun hone => ?_⟩
      have hzero := hspare.second hone
      have := hsecond hone
      dsimp only
      omega
    · -- `ptotalticks` is counted up.
      rw [Kernel.upd_proc_same] at hafter ⊢
      rw [hp']
      obtain ⟨hpos, hfirst, hsecond⟩ := hsound hafter
      refine ⟨hpos, fun hzero => ?_, fun hone => ?_⟩
      · have := hfirst hzero
        dsimp only
        omega
      · have := hsecond hone
        dsimp only
        omega
    · rw [Kernel.upd_proc_same] at hafter ⊢
      rw [hp']
      have hin : (m.kernel.proc c).InStep := by
        cases charged <;> exact hsound hafter
      exact hin.of_same ⟨rfl, rfl, rfl, id⟩

theorem Level.step (h : m.Level) (hok : Sparing m a) (hstep : Step m a n) : n.Level := by
  have hcalm := h.calm.step hok.undisturbed hstep
  cases hstep with
  | sched hctl => exact h.sched hctl
  | timer hctl => exact h.timer hctl hok
  | yield hctl => exact h.sysYield hctl hok
  | other hchanged _ => exact h.changed hcalm hchanged
  | block _ _ hchanged _ => exact h.changed hcalm hchanged

theorem Level.start (stack dir : Page) (root : InodePtr) : (start stack dir root).Level := by
  have hfresh : ∀ q, ((boot stack dir root).proc q).Fresh := by
    intro q
    by_cases hq : q = 0
    · subst hq
      exact ⟨rfl, rfl, rfl⟩
    · rw [boot_proc_ne hq]
      exact ⟨rfl, rfl, rfl⟩
  exact ⟨fun _ hq => hq.elim, fun q => (hfresh q).priority ▸ Nat.zero_le 2, fun q _ => (hfresh q).inStep⟩

theorem Run.level {stack dir : Page} {root : InodePtr} (h : Run Sparing (start stack dir root) m) : m.Level := by
  induction h with
  | refl => exact Level.start stack dir root
  | step _ hok hstep ih => exact ih.step hok hstep

/-! ## Levels -/

/-- A priority goes up by one, or back to zero. -/
theorem Step.priority (hstep : Step m a n) (q : Slot) : (n.kernel.proc q).priority = (m.kernel.proc q).priority ∨
    (n.kernel.proc q).priority = (m.kernel.proc q).priority + 1 ∨ (n.kernel.proc q).priority = 0 := by
  have hslot : (m.kernel.proc q).SameTiming (n.kernel.proc q) ∨ (n.kernel.proc q).Fresh →
      (n.kernel.proc q).priority = (m.kernel.proc q).priority ∨
      (n.kernel.proc q).priority = (m.kernel.proc q).priority + 1 ∨ (n.kernel.proc q).priority = 0 :=
    fun h => h.imp (fun h => h.priority) fun h => .inr h.priority
  cases hstep with
  | sched hctl => exact hslot (sched_slot hctl)
  | @timer c back hctl =>
    by_cases hq : q = c
    · subst hq
      rw [timer_same.priority]
      by_cases hmlfq : (m.kernel.proc q).isMLFQ = true
      · rcases Proc.onTimer_cases hmlfq with ⟨-, heq⟩ | ⟨-, heq⟩ | ⟨-, -, heq⟩ <;> rw [heq]
        · exact .inl rfl
        · exact .inr (.inl rfl)
        · exact .inl rfl
      · unfold Proc.onTimer
        rw [if_neg hmlfq]
        exact .inl rfl
    · rw [timer_other hq]
      exact .inl rfl
  | @yield c back hctl =>
    by_cases hq : q = c
    · subst hq
      rcases @sysYield_cases m q back with ⟨-, hk, -⟩ | ⟨-, hk, -⟩ | ⟨-, hk, -⟩ | ⟨-, hk, -⟩ | ⟨-, -, hk, -⟩ <;> rw [hk]
      · exact .inl rfl
      · exact .inl rfl
      · rw [Kernel.upd_proc_same]
        exact .inl rfl
      · rw [Kernel.upd_proc_same]
        exact .inl rfl
      · rw [Kernel.upd_proc_same]
        exact .inl rfl
    · rw [(sysYield_other hq).1]
      exact .inl rfl
  | other hchanged _ => exact hslot (hchanged.slot_or q)
  | block _ _ hchanged _ => exact hslot (hchanged.slot_or q)

/-- The step charges the process in slot `c` a tick: a timer interrupt, or the last one of the
    statements of `sys_yield` that do. -/
def Charges (m : Clock) (a : Act) (c : Slot) : Prop :=
  m.Runs c ∧ (m.kernel.proc c).isMLFQ = true ∧ (a = .timer ∨ a = .yield ∧ m.point c = .total)

/-- Where ticks are charged in step with the quantum, priorities are 0, 1 and 2 and go up one
    by one or back to zero; and a process that has been charged a tick has not used up the
    allotment of its level. -/
theorem allotment_kept {stack dir : Page} {root : InodePtr} (h : Run Sparing (start stack dir root) m) :
    (∀ q, (m.kernel.proc q).priority ≤ 2) ∧
    (∀ a n q, Step m a n → (n.kernel.proc q).priority = (m.kernel.proc q).priority ∨
      (n.kernel.proc q).priority = (m.kernel.proc q).priority + 1 ∨ (n.kernel.proc q).priority = 0) ∧
    (∀ a n c, Sparing m a → Step m a n → Charges m a c → (n.kernel.proc c).isMLFQ = true →
      (n.kernel.proc c).priority < 2 →
      (n.kernel.proc c).ptotalticks < timeAllotmentPerQ (n.kernel.proc c).priority) := by
  have hlevel := h.level
  refine ⟨hlevel.priority, fun a n q hstep => hstep.priority q, ?_⟩
  rintro a n c hok hstep ⟨hruns, -, ha⟩ hmlfq hp
  have hsound := (hlevel.step hok hstep).sound c hmlfq
  have hafter : ¬ (n.point c).Charging ∨ n.point c = .giveUp true := by
    rcases ha with rfl | ⟨rfl, hpoint⟩
    · cases hstep with
      | timer hctl =>
        rw [timer_point]
        exact .inl (hok c hruns)
    · cases hstep with
      | @yield d back hctl =>
        obtain rfl := Runs.eq ⟨back, hctl⟩ hruns
        rcases @sysYield_cases m c back with ⟨hp, -⟩ | ⟨hp, -⟩ | ⟨hp, -⟩ | ⟨-, -, -, hp⟩ | ⟨_, hp, -⟩
        · exact absurd (hpoint.symm.trans hp) YieldPoint.noConfusion
        · exact absurd (hpoint.symm.trans hp) YieldPoint.noConfusion
        · exact absurd (hpoint.symm.trans hp) YieldPoint.noConfusion
        · exact .inr hp
        · exact absurd (hpoint.symm.trans hp) YieldPoint.noConfusion
  have hin : (n.kernel.proc c).InStep := by
    rcases hafter with hnot | hgive
    · exact (YieldPoint.sound_iff hnot).mp hsound
    · rw [hgive] at hsound
      exact hsound
  exact hin.lt_allotment hp

/-- `Sparing`, with one process. -/
def Solo.sparing (σ : Solo) : Event → Bool
  | .timer => decide (¬ σ.p.Charging)
  | .yield => decide (σ.p = .tick → σ.x.Spare)

theorem Active.sparing {stack dir : Page} {root : InodePtr} {x : Proc} {t i : Nat} {p : YieldPoint} {e : Event}
    (h : Active stack dir root m x t i p) (hok : Solo.sparing ⟨x, t, i, p⟩ e = true) : Sparing m e.act := by
  cases e with
  | timer =>
    intro c hc
    rw [h.runs_eq hc, h.point]
    exact of_decide_eq_true hok
  | yield =>
    intro c hc hp _
    rw [h.runs_eq hc] at hp ⊢
    have hproc : m.kernel.proc 0 = x := by rw [h.kernel]; rfl
    rw [hproc]
    exact of_decide_eq_true hok (h.point.symm.trans hp)

/-- The first process calls `sys_yield` 19 times and uses up a tick. It is charged one more by
    `sys_yield`, and uses up two. -/
def chargedTick : List Event :=
  List.replicate 38 .yield ++ [.timer] ++ List.replicate 5 .yield ++ [.timer, .timer]

/-- With the fifth tick it is moved to level 1. -/
theorem allotment_kept_chargedTick : ∃ m n, Run Sparing (start 0 1 0) m ∧ m.yields = 20 ∧ m.kernel.mlfqTicks = 4 ∧
    (m.kernel.proc 0).priority = 0 ∧ Step m .timer n ∧ Charges m .timer 0 ∧ (n.kernel.proc 0).priority = 1 ∧
    (n.kernel.proc 0).ptotalticks < timeAllotmentPerQ 1 := by
  have hplay : (chargedTick.foldlM (Solo.step Solo.sparing) (Solo.first 0 1)).any (fun τ => τ.i = 20 ∧ τ.t = 4 ∧
      τ.x.isMLFQ = true ∧ τ.x.priority = 0 ∧ τ.x.onTimer.2 = true ∧ τ.x.onTimer.1.isMLFQ = true ∧
      τ.x.onTimer.1.priority = 1 ∧ Solo.sparing τ .timer = true) = true := by
    decide +kernel
  obtain ⟨τ, hτ, hlast⟩ := (Option.any_eq_true _ _).mp hplay
  obtain ⟨hi, ht, hmlfq, hpriority, hleaves, hmlfq', hnext, hok⟩ := of_decide_eq_true hlast
  obtain ⟨m, hm, hactive⟩ := @exists_run_of_events Sparing 0 1 0 (fun _ => trivial) _ Active.sparing _ _ hτ
  obtain ⟨l, -, hctl⟩ := hactive.running
  have hproc : m.kernel.proc 0 = τ.x := by rw [hactive.kernel]; rfl
  have hstep : Step m .timer (m.timer 0 (some (l, past 1))) := .timer hctl
  have hcharges : Charges m .timer 0 := ⟨⟨_, hctl⟩, hproc ▸ hmlfq, .inl rfl⟩
  have hafter : (m.timer 0 (some (l, past 1))).kernel.proc 0 = { τ.x.onTimer.1 with state := .runnable } := by
    rw [(hactive.timer_leaves hmlfq hleaves _).1.kernel]
    rfl
  have hlevel : ((m.timer 0 (some (l, past 1))).kernel.proc 0).priority = 1 := by
    rw [hafter]
    exact hnext
  have hkept := (allotment_kept hm).2.2 .timer _ 0 (hactive.sparing (e := .timer) hok) hstep hcharges
    (by rw [hafter]; exact hmlfq') (by rw [hlevel]; decide)
  rw [hlevel] at hkept
  exact ⟨m, _, hm, hactive.yields.trans hi, by rw [hactive.kernel]; exact ht, hproc ▸ hpriority, hstep, hcharges, hlevel,
    hkept⟩

/-- The first process calls `sys_yield` 19 times and uses up four ticks. It calls `sys_yield`
    once more and is about to count up `ptotalticks`. -/
def lastTick : List Event :=
  List.replicate 38 .yield ++ List.replicate 4 .timer ++ [.yield, .yield, .yield]

/-- The fifth tick is charged by `sys_yield`, and the process stays in level 0. -/
theorem allotment_gamed : ∃ m n, Run Any (start 0 1 0) m ∧ Step m .yield n ∧ Charges m .yield 0 ∧
    (n.kernel.proc 0).isMLFQ = true ∧ (n.kernel.proc 0).priority = 0 ∧
    (n.kernel.proc 0).ptotalticks = timeAllotmentPerQ 0 := by
  have hplay : (lastTick.foldlM (Solo.step fun _ _ => true) (Solo.first 0 1)).any (fun τ => τ.p = .total ∧ τ.x.isMLFQ = true ∧
      τ.x.priority = 0 ∧ τ.x.ptotalticks = 4) = true := by
    decide +kernel
  obtain ⟨τ, hτ, hlast⟩ := (Option.any_eq_true _ _).mp hplay
  obtain ⟨hp, hmlfq, hpriority, htotal⟩ := of_decide_eq_true hlast
  obtain ⟨m, hm, hactive⟩ := @exists_run_of_events Any 0 1 0 (fun _ => trivial) _ (fun _ _ => trivial) _ _ hτ
  obtain ⟨l, -, hctl⟩ := hactive.running
  have hpoint : m.point 0 = .total := hactive.point.trans hp
  have hproc : m.kernel.proc 0 = τ.x := by rw [hactive.kernel]; rfl
  have hafter : (m.sysYield 0 (some (l, past 1))).kernel.proc 0 = { τ.x with ptotalticks := τ.x.ptotalticks + 1 } := by
    unfold sysYield
    rw [hpoint]
    dsimp only [setPoint]
    rw [Kernel.upd_proc_same, hproc]
  refine ⟨m, _, hm, .yield hctl, ⟨⟨_, hctl⟩, hproc ▸ hmlfq, .inr ⟨rfl, hpoint⟩⟩, ?_⟩
  rw [hafter]
  exact ⟨hmlfq, hpriority, congrArg (· + 1) htotal⟩

end Clock

end Xv6
