-- SUMMARY: Stride scheduling between the processes in stride mode and the MLFQ scheduler.
import Xv6.Base.Spread
import Xv6.Scheduler.MinPass
import Xv6.Scheduler.Mlfq

/-! # Stride scheduling

The processes in stride mode and the MLFQ scheduler as a whole share the CPU by their
pass values: the smallest one is chosen and charged. Pass values that differ by at most
the largest charge would stay so, but a call of `MLFQ_Scheduler` may switch any number of
times before it returns, and adds MLFQStrideVal once more at its end; and `findMinPass`
drops the fraction of a pass value, and gives up at 3000000000.
-/

namespace Xv6

/-! ## The code -/

/-- `Stride_Scheduler` until the switch. -/
def Kernel.strideSwitch (s : Kernel) (q : Slot) : Kernel :=
  (s.upd q fun x => { x with pass := x.pass + x.stride }).dispatch q

/-- Interrupts wake up sleeping processes of `W` that follow MLFQ scheduling. -/
def Kernel.wakeMlfq (s : Kernel) (W : Finset Slot) : Kernel :=
  s.sweep fun q x => if q ∈ W ∧ x.isMLFQ = true ∧ x.state = .sleeping then { x with state := .runnable } else x

/-- `scheduler`, from one decision to the next. `Ok` is what holds at decisions, and the
    others what may happen during a switch of the MLFQ scheduler or of `Stride_Scheduler`.
    Between `sti` and `acquire` there may be interrupts. -/
inductive SchedRun (Ok : Kernel → Prop) (Back : Nat → Slot → Kernel → Kernel → Prop)
    (Back' : Slot → Kernel → Kernel → Prop) (s : Kernel) : Kernel → Prop where
  | start : SchedRun Ok Back Back' s s
  | interrupt {t : Kernel} (h : SchedRun Ok Back Back' s t) (W : Finset Slot) : SchedRun Ok Back Back' s (t.wakeMlfq W)
  | mlfq {t u : Kernel} {switches : List Switch} (h : SchedRun Ok Back Back' s t) (hok : Ok t.boostDue)
      (hmin : 100 ≤ t.boostDue.leftShare ∨ t.boostDue.findMinPass = none)
      (hcall : MlfqCall Back t.boostDue switches u) : SchedRun Ok Back Back' s u
  | stride {t u : Kernel} {q : Slot} (h : SchedRun Ok Back Back' s t) (hok : Ok t.boostDue)
      (hlt : t.boostDue.leftShare < 100) (hmin : t.boostDue.findMinPass = some q)
      (hback : Back' q (t.boostDue.strideSwitch q) u) : SchedRun Ok Back Back' s u

/-- The state in which the process that was chosen runs. -/
def Switch.after (x : Switch) : Kernel :=
  (x.table.addPass (levelWeight (x.table.proc x.slot).priority)).dispatch x.slot

/-- After the decision in `s` there is a switch, into the second state. -/
inductive SwitchFrom (Back : Nat → Slot → Kernel → Kernel → Prop) (s : Kernel) : Kernel → Prop where
  | mlfq {l : Nat} {tables : List Kernel} {switches switches' : List Switch} {σ : Scan} {t u : Kernel} {x : Switch}
      (hmin : 100 ≤ s.boostDue.leftShare ∨ s.boostDue.findMinPass = none)
      (h : MlfqRun Back s.boostDue l switches t) (hscan : ScanRun (Back l) l t tables switches' σ u)
      (hx : x ∈ switches' ++ switches) : SwitchFrom Back s x.after
  | stride {q : Slot} (hlt : s.boostDue.leftShare < 100) (hmin : s.boostDue.findMinPass = some q) :
      SwitchFrom Back s (s.boostDue.strideSwitch q)

/-! ## Who shares the CPU -/

/-- The process is in stride mode, and wants to run or runs. -/
def Kernel.Strides (s : Kernel) (q : Slot) : Prop :=
  (s.proc q).isMLFQ = false ∧ ((s.proc q).state = .runnable ∨ (s.proc q).state = .running)

/-- The MLFQ scheduler and the processes in stride mode. -/
def Kernel.Shares (s : Kernel) : Option Slot → Prop
  | none => True
  | some q => s.Strides q

def Kernel.passOf (s : Kernel) : Option Slot → ℚ
  | none => s.mlfqPassVal
  | some q => (s.proc q).pass

/-- The pass values differ by at most `D`. -/
def Kernel.PassesWithin (s : Kernel) (D : ℚ) : Prop := Within s.Shares s.passOf D

/-- The shares are the same. -/
structure Kernel.SameShares (s t : Kernel) : Prop where
  leftShare : t.leftShare = s.leftShare
  mlfqStrideVal : t.mlfqStrideVal = s.mlfqStrideVal
  strides : ∀ q, t.Strides q ↔ s.Strides q
  stride : ∀ q, s.Strides q → (t.proc q).stride = (s.proc q).stride

/-- And so are the pass values of the processes. -/
structure Kernel.SamePasses (s t : Kernel) : Prop extends s.SameShares t where
  pass : ∀ q, s.Strides q → (t.proc q).pass = (s.proc q).pass

/-- While a process runs, shares and pass values stay the same; when it comes back, all
    processes in stride mode are RUNNABLE. -/
structure Steady (s t : Kernel) : Prop extends s.SamePasses t where
  mlfqPassVal : t.mlfqPassVal = s.mlfqPassVal
  runnable : ∀ q, t.Strides q → (t.proc q).state = .runnable

/-- Since `s`, the MLFQ scheduler has been charged MLFQStrideVal `n` times. -/
structure Kernel.Paid (s t : Kernel) (n : ℚ) : Prop extends s.SamePasses t where
  mlfqPassVal : t.mlfqPassVal = s.mlfqPassVal + s.mlfqStrideVal * n

namespace Kernel

variable {s t u : Kernel} {q : Slot} {n m : ℚ}

theorem SameShares.trans (h : s.SameShares t) (h' : t.SameShares u) : s.SameShares u where
  leftShare := h'.leftShare.trans h.leftShare
  mlfqStrideVal := h'.mlfqStrideVal.trans h.mlfqStrideVal
  strides q := (h'.strides q).trans (h.strides q)
  stride q hq := (h'.stride q ((h.strides q).mpr hq)).trans (h.stride q hq)

theorem SamePasses.refl (s : Kernel) : s.SamePasses s :=
  ⟨⟨rfl, rfl, fun _ => Iff.rfl, fun _ _ => rfl⟩, fun _ _ => rfl⟩

theorem SamePasses.trans (h : s.SamePasses t) (h' : t.SamePasses u) : s.SamePasses u where
  toSameShares := h.toSameShares.trans h'.toSameShares
  pass q hq := (h'.pass q ((h.strides q).mpr hq)).trans (h.pass q hq)

theorem Paid.refl (s : Kernel) : s.Paid s 0 := ⟨.refl s, by rw [mul_zero, add_zero]⟩

theorem Paid.trans (h : s.Paid t n) (h' : t.Paid u m) : s.Paid u (n + m) := by
  refine ⟨h.toSamePasses.trans h'.toSamePasses, ?_⟩
  rw [h'.mlfqPassVal, h.mlfqPassVal, h.mlfqStrideVal, mul_add, add_assoc]

/-- Nothing more has been charged. -/
theorem Paid.free (h : s.Paid t n) (h' : t.Paid u 0) : s.Paid u n := add_zero n ▸ h.trans h'

theorem Paid.steady (h : s.Paid t n) (h' : Steady t u) : s.Paid u n :=
  ⟨h.toSamePasses.trans h'.toSamePasses, h'.mlfqPassVal.trans h.mlfqPassVal⟩

/-- Boosting does not touch processes in stride mode. -/
theorem paid_boostDue (s : Kernel) : s.Paid s.boostDue 0 := by
  unfold boostDue
  split
  · have hproc : ∀ q, (s.proc q).isMLFQ = false → s.mlfqBoost.proc q = s.proc q := by
      intro q hq
      rw [mlfqBoost_proc, if_neg]
      rw [hq]
      decide
    refine ⟨⟨⟨rfl, rfl, fun q => ?_, fun q hq => ?_⟩, fun q hq => ?_⟩, by rw [mul_zero, add_zero]; rfl⟩
    · unfold Strides
      rw [mlfqBoost_proc]
      split <;> exact Iff.rfl
    · rw [hproc q hq.1]
    · rw [hproc q hq.1]
  · exact .refl s

theorem paid_addPass (h : s.leftShare < 100) (n : ℚ) : s.Paid (s.addPass n) n := by
  rw [addPass, if_pos h]
  exact ⟨⟨⟨rfl, rfl, fun _ => Iff.rfl, fun _ _ => rfl⟩, fun _ _ => rfl⟩, rfl⟩

/-- A process that is in MLFQ mode runs. -/
theorem paid_dispatch (h : (s.proc q).isMLFQ = true) : s.Paid (s.dispatch q) 0 := by
  have hproc : ∀ p, (s.dispatch q).proc p = if p = q then { s.proc p with state := .running } else s.proc p :=
    fun p => rfl
  have hstrides : ∀ p, (s.dispatch q).Strides p ↔ s.Strides p := by
    intro p
    unfold Strides
    rw [hproc]
    split
    · next hp =>
      have hfalse : (s.proc p).isMLFQ ≠ false := by
        rw [hp, h]
        decide
      exact iff_of_false (fun h => hfalse h.1) fun h => hfalse h.1
    · exact Iff.rfl
  refine ⟨⟨⟨rfl, rfl, hstrides, fun p _ => ?_⟩, fun p _ => ?_⟩, by rw [mul_zero, add_zero]; rfl⟩
  · rw [hproc]
    split <;> rfl
  · rw [hproc]
    split <;> rfl

end Kernel

/-! ## The smallest pass value -/

/-- Pass values that `findMinPass` compares right. -/
def Kernel.WholePasses (s : Kernel) : Prop := ∀ q, s.Strides q → ∃ n : Nat, (s.proc q).pass = n ∧ n < 3000000000

namespace Kernel

variable {s : Kernel} (hwhole : s.WholePasses) (hrun : ∀ q, s.Strides q → (s.proc q).state = .runnable)

theorem Contends.strides {q : Slot} (h : s.Contends q) : s.Strides q := ⟨h.1, .inl h.2⟩

include hwhole

theorem WholePasses.floor {q : Slot} (hq : s.Strides q) : (⌊(s.proc q).pass⌋ : ℚ) = (s.proc q).pass := by
  obtain ⟨n, hn, -⟩ := hwhole q hq
  rw [hn, Int.floor_natCast, Int.cast_natCast]

theorem WholePasses.nonneg : s.PassesNonneg := by
  intro q hq
  obtain ⟨n, hn, -⟩ := hwhole q hq.strides
  rw [hn]
  exact Nat.cast_nonneg n

/-- Whole pass values with the same integral part are the same. -/
theorem WholePasses.least {m : Slot} (hm : s.Contends m)
    (h : ∀ p, s.LeastPass p → ⌊(s.proc p).pass⌋ = ⌊(s.proc m).pass⌋) : s.LeastPass m := by
  obtain ⟨p, hp⟩ := exists_leastPass hm
  have heq : (s.proc p).pass = (s.proc m).pass := by
    rw [← WholePasses.floor hwhole hp.1.strides, h p hp, WholePasses.floor hwhole hm.strides]
  exact ⟨hm, fun q hq => heq ▸ hp.2 q hq⟩

include hrun

/-- The process chosen has the smallest pass value. -/
theorem min_of_findMinPass_some {q : Slot} (h : s.findMinPass = Option.some q) :
    s.Strides q ∧ ∀ i, s.Shares i → (s.proc q).pass ≤ s.passOf i := by
  have hfound := minFound (WholePasses.nonneg hwhole)
  rw [h] at hfound
  cases hfound with
  | first hq _ hge hsame _ =>
    refine ⟨hq.strides, fun i hi => ?_⟩
    cases i with
    | none => exact WholePasses.floor hwhole hq.strides ▸ not_lt.mp hge
    | some p => exact (WholePasses.least hwhole hq hsame).2 p ⟨hi.1, hrun p hi⟩

/-- When the MLFQ scheduler is chosen, it has the smallest pass value. -/
theorem min_of_findMinPass_none (h : s.findMinPass = Option.none) : ∀ i, s.Shares i → s.mlfqPassVal ≤ s.passOf i := by
  have hfound := minFound (WholePasses.nonneg hwhole)
  rw [h] at hfound
  intro i hi
  cases i with
  | none => exact le_rfl
  | some p =>
    have hp : s.Contends p := ⟨hi.1, hrun p hi⟩
    cases hfound with
    | outOfBounds hall =>
      obtain ⟨n, hn, hlt⟩ := hwhole p hi
      have hge := hall p hp
      rw [hn] at hge
      exact absurd (Nat.cast_le.mp hge) (not_le.mpr hlt)
    | mlfq hm _ hless hsame =>
      rw [WholePasses.floor hwhole hm.strides] at hless
      exact hless.le.trans ((WholePasses.least hwhole hm hsame).2 p hp)

end Kernel

/-! ## One call of the MLFQ scheduler -/

/-- While a process that was chosen in level `l` runs, shares and pass values stay the
    same. When it comes back and boosting that is due is done, nobody but this process
    waits in level `l` or below, but perhaps in the last slot. If it is in the last level,
    the largest charge is at least five times MLFQStrideVal. -/
structure ShareOk (D : ℚ) (l : Nat) (q : Slot) (s t : Kernel) : Prop where
  steady : Steady s t
  alone : ∀ p m, p ≠ 63 → l ≤ m → t.boostDue.WaitsAt m p → m = l ∧ p = q
  level : 2 ≤ l → s.mlfqStrideVal * 5 ≤ D

/-- The processes in stride mode are RUNNABLE. -/
def Kernel.Settled (s : Kernel) : Prop := ∀ q, s.Strides q → (s.proc q).state = .runnable

theorem Kernel.Settled.boostDue {s : Kernel} (h : s.Settled) : s.boostDue.Settled := by
  intro q hq
  have hs := h q ((paid_boostDue s).strides q |>.mp hq)
  unfold Kernel.boostDue
  split
  · rw [mlfqBoost_proc]
    split <;> exact hs
  · exact hs

theorem Kernel.wakeMlfq_proc_stride {s : Kernel} {W : Finset Slot} {q : Slot} (hq : (s.proc q).isMLFQ = false) :
    (s.wakeMlfq W).proc q = s.proc q := by
  rw [wakeMlfq, sweep_proc, if_neg fun h => Bool.false_ne_true (hq.symm.trans h.2.1)]

theorem Kernel.wakeMlfq_isMLFQ {s : Kernel} {W : Finset Slot} {q : Slot} :
    ((s.wakeMlfq W).proc q).isMLFQ = (s.proc q).isMLFQ := by
  rw [wakeMlfq, sweep_proc]
  split <;> rfl

/-- Who wakes up shares the CPU as part of the MLFQ scheduler. -/
theorem Kernel.paid_wakeMlfq (s : Kernel) (W : Finset Slot) : s.Paid (s.wakeMlfq W) 0 := by
  refine ⟨⟨⟨rfl, rfl, fun q => ?_, fun q hq => ?_⟩, fun q hq => ?_⟩, by rw [mul_zero, add_zero]; rfl⟩
  · unfold Strides
    rw [wakeMlfq_isMLFQ]
    refine and_congr_right fun hq => ?_
    rw [wakeMlfq_proc_stride hq]
  · rw [wakeMlfq_proc_stride hq.1]
  · rw [wakeMlfq_proc_stride hq.1]

theorem Kernel.Settled.wakeMlfq {s : Kernel} (h : s.Settled) (W : Finset Slot) : (s.wakeMlfq W).Settled := by
  intro q hq
  have hs := (paid_wakeMlfq s W).strides q |>.mp hq
  rw [wakeMlfq_proc_stride hs.1]
  exact h q hs

theorem Kernel.Settled.addPass {s : Kernel} (h : s.Settled) (n : ℚ) : (s.addPass n).Settled := by
  unfold Kernel.addPass
  split <;> exact h

section Call

variable {D : ℚ} {l : Nat} {s t u : Kernel} {tables : List Kernel} {switches : List Switch} {σ : Scan}

/-- A scan that starts when nobody waits in its level finds nobody. -/
theorem ScanRun.none_of_quiet {Back : Slot → Kernel → Kernel → Prop} (h : ScanRun Back l s tables switches σ t)
    (hquiet : ∀ p, p ≠ 63 → ¬ s.boostDue.WaitsAt l p) : switches = [] ∧ t.boostDue = s.boostDue := by
  induction h with
  | start => exact ⟨rfl, rfl⟩
  | pass h hturn ih =>
    obtain ⟨-, -, -, rfl⟩ := h.aligned.pass_inv hturn
    rwa [Kernel.boostDue_boostDue]
  | switch h hturn _ ih =>
    obtain ⟨-, rfl, hwaits, -⟩ := h.aligned.switch_inv hturn
    exact absurd (ih.2 ▸ hwaits) (hquiet _ (slotAt_ne _))

/-- The charge for a switch. -/
theorem Switch.paid_after {x : Switch} (hleft : x.table.leftShare < 100) (hwaits : x.table.WaitsAt l x.slot) :
    x.table.Paid x.after (levelWeight l) := by
  unfold Switch.after
  rw [hwaits.2]
  have hadd := Kernel.paid_addPass hleft (levelWeight l)
  refine hadd.free (Kernel.paid_dispatch ?_)
  unfold Kernel.addPass
  split <;> exact hwaits.1.1

/-- A scan switches at most once. -/
theorem ScanRun.paid (h : ScanRun (ShareOk D l) l s tables switches σ t) (hleft : s.leftShare < 100) :
    (switches = [] ∧ s.Paid t 0) ∨ ∃ x, switches = [x] ∧ s.Paid x.after (levelWeight l) ∧ s.Paid t (levelWeight l) ∧
      (2 ≤ l → s.mlfqStrideVal * 5 ≤ D) ∧ 0 < σ.levturn ∧ x.slot = slotAt (σ.checkpoint - σ.levturn) ∧
      ∀ p m, p ≠ 63 → l ≤ m → t.boostDue.WaitsAt m p → m = l ∧ p = x.slot := by
  induction h with
  | start => exact .inl ⟨rfl, .refl s⟩
  | pass h hturn ih =>
    obtain ⟨-, -, rfl, rfl⟩ := h.aligned.pass_inv hturn
    rw [Kernel.boostDue_boostDue]
    rcases ih with ⟨hnil, hpaid⟩ | ⟨x, hx, hafter, hpaid, hlevel, hpos, hslot, hquiet⟩
    · exact .inl ⟨hnil, hpaid.free (Kernel.paid_boostDue _)⟩
    · refine .inr ⟨x, hx, hafter, hpaid.free (Kernel.paid_boostDue _), hlevel, Nat.succ_pos _, ?_, hquiet⟩
      rw [hslot, Nat.add_sub_add_right]
  | @switch tables switches σ σ' q t t' u h hturn hback ih =>
    obtain ⟨hlt, rfl, hwaits, rfl, rfl⟩ := h.aligned.switch_inv hturn
    rcases ih with ⟨rfl, hpaid⟩ | ⟨x, hx, -, -, -, hpos, hslot, hquiet⟩
    · have hpaid' := hpaid.free (Kernel.paid_boostDue _)
      have hleft' : t.boostDue.leftShare < 100 := hpaid'.leftShare ▸ hleft
      have hafter := Switch.paid_after (x := ⟨slotAt σ.checkpoint, t.boostDue⟩) hleft' hwaits
      have hall := hpaid'.trans hafter
      rw [zero_add] at hall
      have heq : Switch.after ⟨slotAt σ.checkpoint, t.boostDue⟩ =
          (t.boostDue.addPass (levelWeight l)).dispatch (slotAt σ.checkpoint) := by
        unfold Switch.after
        rw [hwaits.2]
      rw [← heq] at hback
      exact .inr ⟨_, rfl, hall, hall.steady hback.steady, fun hl => hall.mlfqStrideVal ▸ hback.level hl, Nat.one_pos,
        rfl, hback.alone⟩
    · -- The circle is not closed before the scan is over.
      obtain ⟨-, hp⟩ := hquiet _ l (slotAt_ne _) le_rfl hwaits
      have hval : σ.checkpoint % 63 = (σ.checkpoint - σ.levturn) % 63 := congrArg Fin.val (hp.trans hslot)
      have hle := h.aligned.levturn_le
      have hle' := h.aligned.levturn_le_checkpoint
      omega

/-- A call switches at most once, and then nobody waits in the levels that are left. -/
theorem MlfqRun.paid (h : MlfqRun (ShareOk D) s l switches t) (hleft : s.leftShare < 100) :
    (switches = [] ∧ s.Paid t 0) ∨ ∃ x m, switches = [x] ∧ s.Paid x.after (levelWeight m) ∧ s.Paid t (levelWeight m) ∧
      (2 ≤ m → s.mlfqStrideVal * 5 ≤ D) ∧ ∀ p n, p ≠ 63 → l ≤ n → ¬ t.boostDue.WaitsAt n p := by
  induction h with
  | start => exact .inl ⟨rfl, .refl s⟩
  | @level l tables switches switches' σ t u v h hscan hover ih =>
    obtain ⟨-, rfl⟩ := hscan.aligned.over_inv hover
    rw [Kernel.boostDue_boostDue]
    rcases ih with ⟨rfl, hpaid⟩ | ⟨x, m, rfl, hafter, hpaid, hlevel, hquiet⟩
    · rcases hscan.paid (hpaid.leftShare ▸ hleft) with ⟨rfl, hpaid'⟩ | ⟨x, rfl, hafter, hpaid', hlevel, -, -, hquiet⟩
      · exact .inl ⟨rfl, (hpaid.free hpaid').free (Kernel.paid_boostDue _)⟩
      · refine .inr ⟨x, l, rfl, zero_add (levelWeight l) ▸ hpaid.trans hafter,
          (zero_add (levelWeight l) ▸ hpaid.trans hpaid').free (Kernel.paid_boostDue _),
          fun hl => hpaid.mlfqStrideVal ▸ hlevel hl, fun p n hp hn hwaits => ?_⟩
        obtain ⟨rfl, -⟩ := hquiet p n hp (by omega) hwaits
        exact absurd hn (Nat.not_succ_le_self _)
    · obtain ⟨rfl, hu⟩ := hscan.none_of_quiet fun p hp => hquiet p l hp le_rfl
      rw [hu]
      exact .inr ⟨x, m, rfl, hafter, hpaid.free (Kernel.paid_boostDue _), hlevel,
        fun p n hp hn => hquiet p n hp (by omega)⟩

theorem ScanRun.settled (h : ScanRun (ShareOk D l) l s tables switches σ t) (hs : s.Settled) : t.Settled := by
  induction h with
  | start => exact hs
  | pass h hturn ih =>
    obtain ⟨-, -, -, rfl⟩ := h.aligned.pass_inv hturn
    exact ih.boostDue
  | switch _ _ hback _ => exact hback.steady.runnable

theorem MlfqRun.settled (h : MlfqRun (ShareOk D) s l switches t) (hs : s.Settled) : t.Settled := by
  induction h with
  | start => exact hs
  | level _ hscan hover ih =>
    obtain ⟨-, rfl⟩ := hscan.aligned.over_inv hover
    exact (hscan.settled ih).boostDue

end Call

/-! ## Runs of the scheduler -/

/-- Shares are positive, no charge for a switch is more than `D`, the processes in stride
    mode are RUNNABLE, and pass values differ by at most `D`. -/
structure Kernel.Fair (s : Kernel) (D : ℚ) : Prop where
  leftShare : s.leftShare < 100
  mlfq_pos : 0 < s.mlfqStrideVal
  mlfq_le : s.mlfqStrideVal * 4 ≤ D
  stride : ∀ q, s.Strides q → 0 < (s.proc q).stride ∧ (s.proc q).stride ≤ D
  settled : s.Settled
  within : s.PassesWithin D

theorem levelWeight_cases (l : Nat) : 0 ≤ levelWeight l ∧ (levelWeight l ≤ 2 ∨ 2 ≤ l ∧ levelWeight l = 4) := by
  rcases l with _ | _ | l
  · exact ⟨zero_le_one, .inl one_le_two⟩
  · exact ⟨zero_le_two, .inl le_rfl⟩
  · exact ⟨zero_le_four, .inr ⟨Nat.le_add_left 2 l, rfl⟩⟩

namespace Kernel.Fair

variable {D n : ℚ} {s t u : Kernel} {q : Slot}

theorem of_sameShares (h : s.Fair D) (hs : s.SameShares t) (hsettled : t.Settled) (hwithin : t.PassesWithin D) :
    t.Fair D where
  leftShare := hs.leftShare ▸ h.leftShare
  mlfq_pos := hs.mlfqStrideVal ▸ h.mlfq_pos
  mlfq_le := hs.mlfqStrideVal ▸ h.mlfq_le
  stride q hq := by
    have hq := (hs.strides q).mp hq
    rw [hs.stride q hq]
    exact h.stride q hq
  settled := hsettled
  within := hwithin

theorem shares_iff (hs : s.SameShares t) (i : Option Slot) : t.Shares i ↔ s.Shares i := by
  cases i with
  | none => exact Iff.rfl
  | some q => exact hs.strides q

/-- The MLFQ scheduler is charged. -/
theorem paid (h : s.Fair D) (hpaid : s.Paid t n) (hmin : ∀ i, s.Shares i → s.mlfqPassVal ≤ s.passOf i) (hn : 0 ≤ n)
    (hD : s.mlfqStrideVal * n ≤ D) : t.PassesWithin D := by
  have hother : ∀ i, s.Shares i → i ≠ none → t.passOf i = s.passOf i := by
    intro i hi hne
    cases i with
    | none => exact absurd rfl hne
    | some p => exact hpaid.pass p hi
  have hcharge := h.within.charge (g := t.passOf) (i := none) hmin (mul_nonneg h.mlfq_pos.le hn) hD
    hpaid.mlfqPassVal hother
  exact hcharge.congr (fun i hi => (shares_iff hpaid.toSameShares i).mp hi) fun _ _ => rfl

/-- Nothing is charged. -/
theorem free (h : s.Fair D) (hpaid : s.Paid t 0) (hsettled : t.Settled) : t.Fair D := by
  refine h.of_sameShares hpaid.toSameShares hsettled ?_
  refine h.within.congr (fun i hi => (shares_iff hpaid.toSameShares i).mp hi) fun i hi => ?_
  cases i with
  | none =>
    have := hpaid.mlfqPassVal
    rwa [mul_zero, add_zero] at this
  | some p => exact hpaid.pass p ((hpaid.strides p).mp hi)

theorem boostDue (h : s.Fair D) : s.boostDue.Fair D := h.free (paid_boostDue s) h.settled.boostDue

theorem strideSwitch_proc (s : Kernel) (p q : Slot) : (s.strideSwitch q).proc p =
    if p = q then { s.proc p with pass := (s.proc p).pass + (s.proc p).stride, state := .running } else s.proc p := by
  unfold strideSwitch dispatch
  rw [upd_proc, upd_proc]
  split <;> rfl

theorem sameShares_strideSwitch (hq : s.Strides q) : s.SameShares (s.strideSwitch q) := by
  refine ⟨rfl, rfl, fun p => ?_, fun p _ => ?_⟩
  · unfold Strides
    rw [strideSwitch_proc]
    split
    · next hp => exact iff_of_true ⟨hp ▸ hq.1, .inr rfl⟩ (hp ▸ hq)
    · exact Iff.rfl
  · rw [strideSwitch_proc]
    split <;> rfl

/-- A process in stride mode is charged. -/
theorem strideSwitch (h : s.Fair D) (hq : s.Strides q) (hmin : ∀ i, s.Shares i → (s.proc q).pass ≤ s.passOf i) :
    (s.strideSwitch q).PassesWithin D := by
  have hother : ∀ i, s.Shares i → i ≠ some q → (s.strideSwitch q).passOf i = s.passOf i := by
    intro i _ hne
    cases i with
    | none => rfl
    | some p =>
      change ((s.strideSwitch q).proc p).pass = (s.proc p).pass
      rw [strideSwitch_proc, if_neg fun hp => hne (congrArg some hp)]
  have hself : (s.strideSwitch q).passOf (some q) = s.passOf (some q) + (s.proc q).stride := by
    change ((s.strideSwitch q).proc q).pass = _
    rw [strideSwitch_proc, if_pos rfl]
    rfl
  have hcharge := h.within.charge (i := some q) hmin (h.stride q hq).1.le (h.stride q hq).2 hself hother
  exact hcharge.congr (fun i hi => (shares_iff (sameShares_strideSwitch hq) i).mp hi) fun _ _ => rfl

/-- A steady run of a process keeps it all. -/
theorem steady (h : s.Fair D) (hs : s.SameShares t) (hwithin : t.PassesWithin D) (hback : Steady t u) : u.Fair D := by
  refine h.of_sameShares (hs.trans hback.toSameShares) hback.runnable ?_
  refine hwithin.congr (fun i hi => (shares_iff hback.toSameShares i).mp hi) fun i hi => ?_
  cases i with
  | none => exact hback.mlfqPassVal
  | some p => exact hback.pass p ((hback.strides p).mp hi)

/-- No more than four times MLFQStrideVal is added at a switch. -/
theorem levelWeight_le (h : s.Fair D) (l : Nat) : s.mlfqStrideVal * levelWeight l ≤ D := by
  refine le_trans (mul_le_mul_of_nonneg_left ?_ h.mlfq_pos.le) h.mlfq_le
  rcases (levelWeight_cases l).2 with hl | ⟨-, hl⟩ <;> linarith

/-- One call of the MLFQ scheduler. -/
theorem call (h : s.Fair D) (hmin : ∀ i, s.Shares i → s.mlfqPassVal ≤ s.passOf i) {switches : List Switch}
    (hcall : MlfqCall (ShareOk D) s switches t) : t.Fair D := by
  obtain ⟨u, hrun, rfl⟩ := hcall
  have hsettled := (hrun.settled h.settled).addPass 1
  have hpos := h.mlfq_pos
  have hle := h.mlfq_le
  rcases hrun.paid h.leftShare with ⟨-, hpaid⟩ | ⟨x, m, -, -, hpaid, hlevel, -⟩
  · have hall := hpaid.trans (paid_addPass (hpaid.leftShare ▸ h.leftShare) 1)
    exact h.of_sameShares hall.toSameShares hsettled (h.paid hall hmin (by norm_num) (by linarith))
  · have hall := hpaid.trans (paid_addPass (hpaid.leftShare ▸ h.leftShare) 1)
    obtain ⟨hnonneg, hcases⟩ := levelWeight_cases m
    refine h.of_sameShares hall.toSameShares hsettled (h.paid hall hmin (by linarith) ?_)
    rcases hcases with hm | ⟨hm, hfour⟩
    · nlinarith
    · rw [hfour]
      have := hlevel hm
      linarith

/-- A switch in a call of the MLFQ scheduler. -/
theorem switch (h : s.Fair D) (hmin : ∀ i, s.Shares i → s.mlfqPassVal ≤ s.passOf i) {l : Nat} {tables : List Kernel}
    {switches switches' : List Switch} {σ : Scan} {x : Switch} (hrun : MlfqRun (ShareOk D) s l switches t)
    (hscan : ScanRun (ShareOk D l) l t tables switches' σ u) (hx : x ∈ switches' ++ switches) :
    x.after.PassesWithin D := by
  have hdone : ∀ m, s.Paid x.after (levelWeight m) → x.after.PassesWithin D := fun m hpaid =>
    h.paid hpaid hmin (levelWeight_cases m).1 (h.levelWeight_le m)
  rcases hrun.paid h.leftShare with ⟨rfl, hpaid⟩ | ⟨y, m, rfl, hafter, -, -, hquiet⟩
  · rcases hscan.paid (hpaid.leftShare ▸ h.leftShare) with ⟨rfl, -⟩ | ⟨y, rfl, hafter, -⟩
    · exact absurd hx List.not_mem_nil
    · obtain rfl : x = y := by simpa using hx
      exact hdone l (zero_add (levelWeight l) ▸ hpaid.trans hafter)
  · obtain ⟨rfl, -⟩ := hscan.none_of_quiet fun p hp => hquiet p l hp le_rfl
    obtain rfl : x = y := by simpa using hx
    exact hdone m hafter

end Kernel.Fair

theorem SchedRun.fair {D : ℚ} {s t : Kernel} (h : SchedRun Kernel.WholePasses (ShareOk D) (fun _ => Steady) s t)
    (hfair : s.Fair D) : t.Fair D := by
  induction h with
  | start => exact hfair
  | interrupt _ W ih => exact ih.free (Kernel.paid_wakeMlfq _ W) (ih.settled.wakeMlfq W)
  | mlfq _ hok hmin hcall ih =>
    have hnone := hmin.resolve_left (not_le.mpr ih.boostDue.leftShare)
    exact ih.boostDue.call (Kernel.min_of_findMinPass_none hok ih.boostDue.settled hnone) hcall
  | stride _ hok _ hmin hback ih =>
    obtain ⟨hq, hle⟩ := Kernel.min_of_findMinPass_some hok ih.boostDue.settled hmin
    exact ih.boostDue.steady (Kernel.Fair.sameShares_strideSwitch hq) (ih.boostDue.strideSwitch hq hle) hback

/-- If at a decision of the scheduler the pass values differ by at most `D`, which is not
    less than any charge for a switch, this stays so at every later decision and at every
    later switch, as long as pass values are whole numbers less than 3000000000 and every
    call of the MLFQ scheduler switches to one process only, from the last level only if
    `D` is at least five times MLFQStrideVal. -/
theorem lag_bounded {D : ℚ} {s t : Kernel} (hfair : s.Fair D)
    (h : SchedRun Kernel.WholePasses (ShareOk D) (fun _ => Steady) s t) :
    t.PassesWithin D ∧ (t.boostDue.WholePasses → ∀ u, SwitchFrom (ShareOk D) t u → u.PassesWithin D) := by
  have ht := h.fair hfair
  refine ⟨ht.within, fun hok u hu => ?_⟩
  cases hu with
  | mlfq hmin hrun hscan hx =>
    have hnone := hmin.resolve_left (not_le.mpr ht.boostDue.leftShare)
    exact ht.boostDue.switch (Kernel.min_of_findMinPass_none hok ht.boostDue.settled hnone) hrun hscan hx
  | stride _ hmin =>
    obtain ⟨hq, hle⟩ := Kernel.min_of_findMinPass_some hok ht.boostDue.settled hmin
    exact ht.boostDue.strideSwitch hq hle

/-! ## Two processes with 20% each -/

/-- The processes in slots 1 and 2 have 20% of the CPU each; the one in slot 0 waits in the
    last level of the MLFQ scheduler. -/
def shareTable (pass₀ pass₁ pass₂ : ℚ) : Kernel :=
  { boot 0 1 0 with
    proc := fun q =>
      { Proc.init 0 1 with
        isMLFQ := decide (q ≠ 1 ∧ q ≠ 2)
        state := if q = 0 ∨ q = 1 ∨ q = 2 then .runnable else .sleeping
        priority := 2
        stride := 5
        pass := if q = 1 then pass₁ else pass₂ }
    leftShare := 60
    mlfqStrideVal := 5 / 3
    mlfqPassVal := pass₀ }

section ShareTable

variable {a b c : ℚ} {q : Slot}

theorem shareTable_boostDue : (shareTable a b c).boostDue = shareTable a b c :=
  if_neg (Nat.not_le_of_lt (Nat.zero_lt_succ 99))

theorem shareTable_strides : (shareTable a b c).Strides q ↔ q = 1 ∨ q = 2 := by
  unfold Kernel.Strides shareTable
  dsimp only
  constructor
  · rintro ⟨hmlfq, -⟩
    have := of_decide_eq_false hmlfq
    tauto
  · rintro (rfl | rfl)
    · exact ⟨rfl, .inl rfl⟩
    · exact ⟨rfl, .inl rfl⟩

theorem shareTable_waits : (shareTable a b c).Waits q ↔ q = 0 := by
  unfold Kernel.Waits shareTable
  dsimp only
  constructor
  · rintro ⟨hmlfq, hst⟩
    have hne := of_decide_eq_true hmlfq
    by_contra hzero
    rw [if_neg (by tauto)] at hst
    cases hst
  · rintro rfl
    exact ⟨rfl, rfl⟩

theorem shareTable_settled : (shareTable a b c).Settled := by
  intro q hq
  exact if_pos (.inr (shareTable_strides.mp hq))

theorem shareTable_wholePasses {m n : Nat} (hm : m < 3000000000) (hn : n < 3000000000) :
    (shareTable a m n).WholePasses := by
  intro q hq
  rcases shareTable_strides.mp hq with rfl | rfl
  · exact ⟨m, rfl, hm⟩
  · exact ⟨n, rfl, hn⟩

theorem shareTable_within {D : ℚ} (h : ∀ x ∈ [a, b, c], ∀ y ∈ [a, b, c], x ≤ y + D) :
    (shareTable a b c).PassesWithin D := by
  have hmem : ∀ i, (shareTable a b c).Shares i → (shareTable a b c).passOf i ∈ [a, b, c] := by
    intro i hi
    cases i with
    | none => exact List.mem_cons_self
    | some q =>
      refine List.mem_cons_of_mem a ?_
      rcases shareTable_strides.mp hi with rfl | rfl
      · exact List.mem_cons_self
      · exact List.mem_cons_of_mem b List.mem_cons_self
  exact fun i hi j hj => h _ (hmem i hi) _ (hmem j hj)

theorem shareTable_fair {D : ℚ} (hD : 20 / 3 ≤ D) (h : ∀ x ∈ [a, b, c], ∀ y ∈ [a, b, c], x ≤ y + D) :
    (shareTable a b c).Fair D where
  leftShare := by change (60 : ℚ) < 100; norm_num
  mlfq_pos := by change (0 : ℚ) < 5 / 3; norm_num
  mlfq_le := by change (5 / 3 * 4 : ℚ) ≤ D; linarith
  stride q _ := by
    change (0 : ℚ) < 5 ∧ (5 : ℚ) ≤ D
    constructor <;> linarith
  settled := shareTable_settled
  within := shareTable_within h

theorem shareTable_addPass {n : ℚ} : (shareTable a b c).addPass n = shareTable (a + 5 / 3 * n) b c :=
  if_pos (show (60 : ℚ) < 100 by norm_num)

/-- The process in slot `q` runs and comes back, and all is as it was. -/
theorem shareTable_steady : Steady ((shareTable a b c).dispatch q) (shareTable a b c) := by
  have hproc : ∀ p, ((shareTable a b c).dispatch q).proc p =
      if p = q then { (shareTable a b c).proc p with state := .running } else (shareTable a b c).proc p := fun p => rfl
  refine ⟨⟨⟨rfl, rfl, fun p => ?_, fun p _ => ?_⟩, fun p _ => ?_⟩, rfl, shareTable_settled⟩
  · unfold Kernel.Strides
    rw [hproc]
    split
    · constructor
      · exact fun h => ⟨h.1, .inr rfl⟩
      · exact fun h => shareTable_strides.mpr (by
          have := of_decide_eq_false h.1
          tauto)
    · exact Iff.rfl
  · rw [hproc]
    split <;> rfl
  · rw [hproc]
    split <;> rfl

theorem shareTable_strideSwitch_one : (shareTable a b c).strideSwitch 1 = (shareTable a (b + 5) c).dispatch 1 := by
  unfold Kernel.strideSwitch Kernel.dispatch Kernel.upd Kernel.sweep
  dsimp only
  congr 1
  funext q
  by_cases hq : q = 1
  · subst hq
    rfl
  · rw [if_neg hq, if_neg hq, if_neg hq]
    unfold shareTable
    dsimp only
    rw [if_neg hq, if_neg hq]

theorem shareTable_waitsAt {m : Nat} (h : (shareTable a b c).WaitsAt m q) : m = 2 ∧ q = 0 :=
  ⟨h.2.symm, shareTable_waits.mp h.1⟩

/-- The process in slot 0 is chosen alone. -/
theorem shareTable_shareOk : ShareOk (25 / 3) 2 0 ((shareTable a b c).dispatch 0) (shareTable a b c) where
  steady := shareTable_steady
  alone p m _ _ h := by
    rw [shareTable_boostDue] at h
    exact shareTable_waitsAt h
  level _ := by change (5 / 3 * 5 : ℚ) ≤ 25 / 3; norm_num

/-- One call of the MLFQ scheduler with the process in slot 0. -/
theorem shareTable_call {Back : Nat → Slot → Kernel → Kernel → Prop}
    (hback : ∀ a, Back 2 0 ((shareTable a b c).dispatch 0) (shareTable a b c)) :
    MlfqCall Back (shareTable a b c) [⟨0, shareTable a b c⟩] (shareTable (a + 5 / 3 * 4 + 5 / 3 * 1) b c) := by
  obtain ⟨t, hrun, ht⟩ := @MlfqRun.exists_quiet Back (shareTable a b c) 2 fun m hm q _ h => by
    rw [shareTable_boostDue] at h
    have := (shareTable_waitsAt h).1
    omega
  rw [shareTable_boostDue] at ht
  have hstart : ScanRun (Back 2) 2 t [] [] .start t := .start
  have hswitch := hstart.switch_of (u := shareTable (a + 5 / 3 * 4) b c) (by decide)
    (by rw [ht]; exact ⟨shareTable_waits.mpr rfl, rfl⟩) (by
      rw [ht, shareTable_addPass]
      exact hback _)
  obtain ⟨tables, σ, u, hscan, hover⟩ := hswitch.ends fun i hi h => by
    rw [shareTable_boostDue] at h
    have hval : (0 + 1 + i) % 63 = 0 := congrArg Fin.val (shareTable_waits.mp h.1)
    dsimp only at hi
    omega
  rw [ht] at hscan
  rw [shareTable_boostDue] at hover
  exact ⟨_, .level hrun hscan hover, shareTable_addPass.symm⟩

theorem shareTable_leftShare : (shareTable a b c).boostDue.leftShare < 100 := by
  rw [shareTable_boostDue]
  change (60 : ℚ) < 100
  norm_num

theorem shareTable_boostDue_whole (m : Nat) (hm : m < 3000000000) (hb : b = m) :
    (shareTable a b 1).boostDue.WholePasses := by
  subst hb
  rw [shareTable_boostDue]
  exact_mod_cast shareTable_wholePasses (a := a) (m := m) (n := 1) hm (by decide)

/-- The MLFQ scheduler is the first to be chosen. -/
theorem shareTable_run {Back : Nat → Slot → Kernel → Kernel → Prop} {Back' : Slot → Kernel → Kernel → Prop}
    (hback : ∀ a, Back 2 0 ((shareTable a 1 1).dispatch 0) (shareTable a 1 1)) :
    SchedRun Kernel.WholePasses Back Back' (shareTable 0 1 1) (shareTable (0 + 5 / 3 * 4 + 5 / 3 * 1) 1 1) := by
  have hmin : (shareTable 0 1 1).findMinPass = none := by decide +kernel
  have hcall := @shareTable_call 0 1 1 Back hback
  rw [← shareTable_boostDue] at hmin
  nth_rewrite 1 [← shareTable_boostDue] at hcall
  exact .mlfq .start (shareTable_boostDue_whole 1 (by decide) (by norm_num)) (.inr hmin) hcall

/-- Then the first process is. -/
theorem shareTable_findMinPass : (shareTable (0 + 5 / 3 * 4 + 5 / 3 * 1) 1 1).boostDue.findMinPass = some 1 := by
  rw [shareTable_boostDue]
  decide +kernel

/-- The MLFQ scheduler is chosen, then the first process, then the second. -/
theorem lag_bounded_thrice : ∃ s t u, s.Fair (25 / 3) ∧
    SchedRun Kernel.WholePasses (ShareOk (25 / 3)) (fun _ => Steady) s t ∧ t.mlfqPassVal = s.mlfqPassVal + 25 / 3 ∧
    (t.proc 1).pass = (s.proc 1).pass + 5 ∧ SwitchFrom (ShareOk (25 / 3)) t u ∧ u.PassesWithin (25 / 3) := by
  have hfair : (shareTable 0 1 1).Fair (25 / 3) := shareTable_fair (by norm_num) (by decide +kernel)
  have hrun : SchedRun Kernel.WholePasses (ShareOk (25 / 3)) (fun _ => Steady) (shareTable 0 1 1)
      (shareTable (0 + 5 / 3 * 4 + 5 / 3 * 1) (1 + 5) 1) := by
    refine .stride (shareTable_run fun _ => shareTable_shareOk) (shareTable_boostDue_whole 1 (by decide) (by norm_num))
      shareTable_leftShare shareTable_findMinPass ?_
    rw [shareTable_boostDue, shareTable_strideSwitch_one]
    exact shareTable_steady
  have hswitch : SwitchFrom (ShareOk (25 / 3)) (shareTable (0 + 5 / 3 * 4 + 5 / 3 * 1) (1 + 5) 1) _ :=
    .stride shareTable_leftShare (q := 2) (by rw [shareTable_boostDue]; decide +kernel)
  have hwhole := @shareTable_boostDue_whole (0 + 5 / 3 * 4 + 5 / 3 * 1) (1 + 5) 6 (by decide) (by norm_num)
  refine ⟨_, _, _, hfair, hrun, ?_, rfl, hswitch, (lag_bounded hfair hrun).2 hwhole _ hswitch⟩
  change (0 + 5 / 3 * 4 + 5 / 3 * 1 : ℚ) = 0 + 25 / 3
  norm_num

end ShareTable

/-- A call of the MLFQ scheduler adds MLFQStrideVal five times, and the next process is
    chosen while the other one and the MLFQ scheduler are more than the largest charge
    apart. -/
theorem lag_exceeded : ∃ t u, (shareTable 0 1 1).Fair (20 / 3) ∧ (shareTable 0 1 1).mlfqStrideVal * 4 = 20 / 3 ∧
    SchedRun Kernel.WholePasses (fun _ _ => Steady) (fun _ => Steady) (shareTable 0 1 1) t ∧ t.Waits 0 ∧
    SwitchFrom (fun _ _ => Steady) t u ∧ ¬ u.PassesWithin (20 / 3) := by
  have hswitch : SwitchFrom (fun _ _ => Steady) (shareTable (0 + 5 / 3 * 4 + 5 / 3 * 1) 1 1)
      ((shareTable (0 + 5 / 3 * 4 + 5 / 3 * 1) 1 1).boostDue.strideSwitch 1) :=
    .stride shareTable_leftShare shareTable_findMinPass
  refine ⟨_, _, shareTable_fair le_rfl (by decide +kernel), by change (5 / 3 * 4 : ℚ) = 20 / 3; norm_num,
    shareTable_run fun _ => shareTable_steady, shareTable_waits.mpr rfl, hswitch, fun hwithin => ?_⟩
  rw [shareTable_boostDue, shareTable_strideSwitch_one] at hwithin
  have hapart := hwithin none trivial (some 2) ⟨rfl, .inl rfl⟩
  change (0 + 5 / 3 * 4 + 5 / 3 * 1 : ℚ) ≤ 1 + 20 / 3 at hapart
  norm_num at hapart

end Xv6
