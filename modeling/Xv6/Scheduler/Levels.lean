-- SUMMARY: When the MLFQ scheduler respects levels.
import Xv6.Scheduler.Mlfq

/-! # Levels

The scans of the levels follow each other, and none of them goes back to a higher
level. So a process is overlooked if it begins to wait in a higher level while a lower
one is scanned, if it is in the last slot, or if it was the last one chosen in its level
and waits there again, as after its time quantum. Without these, whoever is chosen is in
the highest level in which somebody waits. Boosting does no harm: it moves all processes
to the first level, and the scans of the other levels then find nobody.
-/

namespace Xv6

/-- Whoever waits is in level `l` or below, or all are in the first level. -/
def Kernel.Calm (s : Kernel) (l : Nat) : Prop :=
  (∀ q, s.Waits q → l ≤ (s.proc q).priority) ∨ ∀ q, s.Waits q → (s.proc q).priority = 0

theorem Kernel.Calm.boostDue {s : Kernel} {l : Nat} (h : s.Calm l) : s.boostDue.Calm l := by
  by_cases hticks : 100 ≤ s.mlfqTicks
  · rw [Kernel.boostDue, if_pos hticks]
    exact .inr fun q hq => mlfqBoost_priority (mlfqBoost_waits.mp hq)
  · rw [Kernel.boostDue, if_neg hticks]
    exact h

/-- When the process in slot `q`, chosen in level `l`, comes back, nobody waits in a
    higher level or in the last slot; and after boosting that is due, `q` waits in level
    `l` only together with another slot that is scanned. -/
def LevelOk (l : Nat) (q : Slot) (_ t : Kernel) : Prop :=
  (∀ p, t.Waits p → l ≤ (t.proc p).priority) ∧ ¬ t.Waits 63 ∧
    (t.boostDue.WaitsAt l q → ∃ p, p ≠ q ∧ p ≠ 63 ∧ t.boostDue.WaitsAt l p)

/-- During a scan of level `l`: in the slots it has come past since the last switch nobody
    waits in level `l`, but perhaps in the slot of the switch, and then also elsewhere. -/
structure LevelInv (l : Nat) (σ : Scan) (s : Kernel) : Prop where
  calm : s.Calm l
  last : ¬ s.Waits 63
  seen : ∀ j < σ.levturn, s.boostDue.WaitsAt l (slotAt (σ.checkpoint - 1 - j)) →
    j + 1 = σ.levturn ∧ ∃ q, q ≠ slotAt (σ.checkpoint - 1 - j) ∧ q ≠ 63 ∧ s.boostDue.WaitsAt l q

/-- Whoever is chosen is in the highest level in which somebody waits. -/
def Switch.InOrder (x : Switch) : Prop :=
  ∀ q, x.table.Waits q → (x.table.proc x.slot).priority ≤ (x.table.proc q).priority

section Scan

variable {l : Nat} {s t u : Kernel} {tables : List Kernel} {switches : List Switch} {σ σ' : Scan} {q : Slot}

theorem LevelInv.start (hcalm : s.Calm l) (hlast : ¬ s.Waits 63) : LevelInv l .start s :=
  ⟨hcalm, hlast, fun j hj => absurd hj (Nat.not_lt_zero j)⟩

theorem LevelInv.pass (h : LevelInv l σ s) (hwaits : ¬ s.boostDue.WaitsAt l (slotAt σ.checkpoint)) :
    LevelInv l ⟨σ.checkpoint + 1, σ.levturn + 1, slotAt σ.checkpoint + 1⟩ s.boostDue := by
  refine ⟨h.calm.boostDue, fun hlast => h.last (Kernel.boostDue_waits.mp hlast), fun j hj hw => ?_⟩
  rw [Kernel.boostDue_boostDue] at hw ⊢
  cases j with
  | zero => exact absurd hw hwaits
  | succ j =>
    have hsub : σ.checkpoint + 1 - 1 - (j + 1) = σ.checkpoint - 1 - j := by omega
    dsimp only at hw hj ⊢
    rw [hsub] at hw ⊢
    obtain ⟨hj', hq⟩ := h.seen j (Nat.lt_of_succ_lt_succ hj) hw
    exact ⟨congrArg (· + 1) hj', hq⟩

theorem LevelInv.switch {n : Nat} (hback : LevelOk l (slotAt n) s t) : LevelInv l ⟨n + 1, 1, slotAt n + 1⟩ t := by
  obtain ⟨hcalm, hlast, hagain⟩ := hback
  refine ⟨.inl hcalm, hlast, fun j hj hw => ?_⟩
  obtain rfl : j = 0 := Nat.lt_one_iff.mp hj
  exact ⟨rfl, hagain hw⟩

/-- The choice is right. -/
theorem LevelInv.inOrder (h : LevelInv l σ s) (hw : s.boostDue.WaitsAt l q) : Switch.InOrder ⟨q, s.boostDue⟩ := by
  intro p hp
  rcases h.calm.boostDue with hcalm | hzero
  · exact hw.2 ▸ hcalm p hp
  · dsimp only
    rw [hzero q hw.1]
    exact Nat.zero_le _

/-- When the scan is over, nobody waits in its level. -/
theorem LevelInv.over (h : LevelInv l σ s) (hal : σ.Aligned) (hlt : σ.levturn = 63) : s.boostDue.Calm (l + 1) := by
  have hnone : ∀ p, p ≠ 63 → ¬ s.boostDue.WaitsAt l p := by
    intro p hp hw
    have hle := hlt ▸ hal.levturn_le_checkpoint
    obtain ⟨j, hj, rfl⟩ := exists_slotAt hle hp
    -- Only the slot of the last switch may have somebody, and then another one has too.
    obtain ⟨hj', q, hqp, hq63, hqw⟩ := h.seen j (hlt ▸ hj) hw
    obtain ⟨i, hi, rfl⟩ := exists_slotAt hle hq63
    obtain ⟨hi', -⟩ := h.seen i (hlt ▸ hi) hqw
    obtain rfl : i = j := by omega
    exact hqp rfl
  rcases h.calm.boostDue with hcalm | hzero
  · refine .inl fun p hp => Nat.lt_of_le_of_ne (hcalm p hp) fun hl => ?_
    have hp63 : p ≠ 63 := by
      rintro rfl
      exact h.last (Kernel.boostDue_waits.mp hp)
    exact hnone p hp63 ⟨hp, hl.symm⟩
  · exact .inr hzero

theorem ScanRun.levelInv (h : ScanRun (LevelOk l) l s tables switches σ t) (hcalm : s.Calm l) (hlast : ¬ s.Waits 63) :
    LevelInv l σ t ∧ ∀ x ∈ switches, x.InOrder := by
  induction h with
  | start => exact ⟨.start hcalm hlast, fun x hx => absurd hx List.not_mem_nil⟩
  | pass h hturn ih =>
    obtain ⟨hinv, hall⟩ := ih
    obtain ⟨-, hwaits, rfl, rfl⟩ := h.aligned.pass_inv hturn
    exact ⟨hinv.pass hwaits, hall⟩
  | switch h hturn hback ih =>
    obtain ⟨hinv, hall⟩ := ih
    obtain ⟨-, rfl, hwaits, rfl, -⟩ := h.aligned.switch_inv hturn
    refine ⟨.switch hback, fun x hx => ?_⟩
    rcases List.mem_cons.mp hx with rfl | hx
    · exact hinv.inOrder hwaits
    · exact hall x hx

end Scan

theorem MlfqRun.calm {s t : Kernel} {l : Nat} {switches : List Switch} (h : MlfqRun LevelOk s l switches t)
    (hlast : ¬ s.Waits 63) : t.Calm l ∧ ¬ t.Waits 63 ∧ ∀ x ∈ switches, x.InOrder := by
  induction h with
  | start => exact ⟨.inl fun _ _ => Nat.zero_le _, hlast, fun x hx => absurd hx List.not_mem_nil⟩
  | level _ hscan hover ih =>
    obtain ⟨hcalm, hlast, hall⟩ := ih
    obtain ⟨hinv, hall'⟩ := hscan.levelInv hcalm hlast
    obtain ⟨hlt, rfl⟩ := hscan.aligned.over_inv hover
    refine ⟨hinv.over hscan.aligned hlt, fun h => hinv.last (Kernel.boostDue_waits.mp h), fun x hx => ?_⟩
    exact (List.mem_append.mp hx).elim (hall' x) (hall x)

section TwoLevels

variable {st st' : ProcState}

end TwoLevels

end Xv6
