-- SUMMARY: The scans of the process table by the MLFQ scheduler, and which slots they reach.
import Xv6.Process.Runs

/-! # MLFQ scheduler

`MLFQ_Scheduler` scans the process table once for each level. A scan goes around in a
circle until it has come past 63 slots in a row without a switch; `checkpoint % 63`
tells where it is. While a process runs, the table may change in any way, so a run of
a scan takes whatever state the process leaves behind.

The circle has 63 slots, and the table 64: the last slot is never looked at.
-/

namespace Xv6

/-! ## The code -/

/-- Reset all the processes that follow MLFQ scheduling to their initial state. -/
@[simps] def Kernel.mlfqBoost (s : Kernel) : Kernel :=
  { s with
    proc := fun p =>
      if (s.proc p).isMLFQ then { s.proc p with priority := 0, pticks := 0, ptotalticks := 0 } else s.proc p
    mlfqTicks := 0 }

/-- Frequency of priority boosting is 100 ticks. -/
def Kernel.boostDue (s : Kernel) : Kernel := if 100 ≤ s.mlfqTicks then s.mlfqBoost else s

/-- The process is RUNNABLE and follows MLFQ scheduling. -/
def Kernel.Waits (s : Kernel) (q : Slot) : Prop := (s.proc q).isMLFQ = true ∧ (s.proc q).state = .runnable

/-- Such a process in level `l`. -/
def Kernel.WaitsAt (s : Kernel) (l : Nat) (q : Slot) : Prop := s.Waits q ∧ (s.proc q).priority = l

instance (s : Kernel) (q : Slot) : Decidable (s.Waits q) := inferInstanceAs (Decidable (_ ∧ _))

instance (s : Kernel) (l : Nat) (q : Slot) : Decidable (s.WaitsAt l q) := inferInstanceAs (Decidable (_ ∧ _))

/-- How many times a switch to a process in a level adds MLFQStrideVal. -/
def levelWeight : Nat → ℚ
  | 0 => 1
  | 1 => 2
  | _ => 4

def Kernel.addPass (s : Kernel) (n : ℚ) : Kernel :=
  if s.leftShare < 100 then { s with mlfqPassVal := s.mlfqPassVal + s.mlfqStrideVal * n } else s

/-- The variables of a scan; `p` is an index into the process table. -/
structure Scan where
  checkpoint : Nat
  levturn : Nat
  p : Nat

def Scan.start : Scan := ⟨0, 0, 0⟩

/-- The scan is over, passes over a slot, or switches to the process in slot `q`; `s` is
    the state then. -/
inductive Turn where
  | over (s : Kernel)
  | pass (σ : Scan) (s : Kernel)
  | switch (q : Slot) (σ : Scan) (s : Kernel)

/-- Search for a RUNNABLE process that is in level `l`: one turn of the loop. -/
def Scan.turn (l : Nat) (σ : Scan) (s : Kernel) : Turn :=
  if h : σ.p < NPROC then
    let s := s.boostDue
    -- checks if the scheduler has searched all the process in the queue
    if σ.levturn = 63 then .over s
    else
      let q : Slot := if σ.checkpoint % 63 = 0 then 0 else ⟨σ.p, h⟩
      if s.WaitsAt l q then
        .switch q ⟨σ.checkpoint + 1, 1, q + 1⟩ ((s.addPass (levelWeight l)).dispatch q)
      else .pass ⟨σ.checkpoint + 1, σ.levturn + 1, q + 1⟩ s
  else .over s

/-- A switch: the slot, and the table when it was chosen. -/
structure Switch where
  slot : Slot
  table : Kernel

/-- A scan of level `l` from `s` on. The lists have the tables at each turn and the
    switches, the last one first. `Back q t u` is what may happen between the switch to
    `q` in state `t` and its return in state `u`. -/
inductive ScanRun (Back : Slot → Kernel → Kernel → Prop) (l : Nat) (s : Kernel) :
    List Kernel → List Switch → Scan → Kernel → Prop where
  | start : ScanRun Back l s [] [] .start s
  | pass {tables : List Kernel} {switches : List Switch} {σ σ' : Scan} {t u : Kernel}
      (h : ScanRun Back l s tables switches σ t) (hturn : σ.turn l t = .pass σ' u) :
      ScanRun Back l s (t.boostDue :: tables) switches σ' u
  | switch {tables : List Kernel} {switches : List Switch} {σ σ' : Scan} {q : Slot} {t t' u : Kernel}
      (h : ScanRun Back l s tables switches σ t) (hturn : σ.turn l t = .switch q σ' t') (hback : Back q t' u) :
      ScanRun Back l s (t.boostDue :: tables) (⟨q, t.boostDue⟩ :: switches) σ' u

/-- `MLFQ_Scheduler` from `s` until the scan of level `l` starts. -/
inductive MlfqRun (Back : Nat → Slot → Kernel → Kernel → Prop) (s : Kernel) :
    Nat → List Switch → Kernel → Prop where
  | start : MlfqRun Back s 0 [] s
  | level {l : Nat} {tables : List Kernel} {switches switches' : List Switch} {σ : Scan} {t u v : Kernel}
      (h : MlfqRun Back s l switches t) (hscan : ScanRun (Back l) l t tables switches' σ u)
      (hover : σ.turn l u = .over v) : MlfqRun Back s (l + 1) (switches' ++ switches) v

/-- `MLFQ_Scheduler` from `s` to `t`. -/
def MlfqCall (Back : Nat → Slot → Kernel → Kernel → Prop) (s : Kernel) (switches : List Switch) (t : Kernel) : Prop :=
  ∃ u, MlfqRun Back s 3 switches u ∧ t = u.addPass 1

/-! ## Boosting -/

namespace Kernel

variable {s : Kernel} {q : Slot} {l : Nat}

theorem boostDue_mlfqTicks : s.boostDue.mlfqTicks < 100 := by
  unfold boostDue
  split
  · rw [mlfqBoost_mlfqTicks]
    decide
  · next h => exact Nat.lt_of_not_le h

@[simp] theorem boostDue_boostDue : s.boostDue.boostDue = s.boostDue := if_neg (Nat.not_le.mpr boostDue_mlfqTicks)

theorem mlfqBoost_waits : s.mlfqBoost.Waits q ↔ s.Waits q := by
  unfold Waits
  rw [mlfqBoost_proc]
  split <;> exact Iff.rfl

@[simp] theorem boostDue_waits : s.boostDue.Waits q ↔ s.Waits q := by
  unfold boostDue
  split
  · exact mlfqBoost_waits
  · exact Iff.rfl

/-- After boosting, all are in the first level. -/
theorem mlfqBoost_priority (h : s.Waits q) : (s.mlfqBoost.proc q).priority = 0 := by
  rw [mlfqBoost_proc, if_pos h.1]

theorem boostDue_priority (h : s.Waits q) :
    (s.boostDue.proc q).priority = (s.proc q).priority ∨ (s.boostDue.proc q).priority = 0 := by
  unfold boostDue
  split
  · exact .inr (mlfqBoost_priority h)
  · exact .inl rfl

end Kernel

/-! ## Where a scan is -/

/-- The slot at which a scan looks. -/
def slotAt (checkpoint : Nat) : Slot := ⟨checkpoint % 63, by unfold NPROC; omega⟩

/-- `p` and `checkpoint` go together. -/
structure Scan.Aligned (σ : Scan) : Prop where
  p_le : σ.p ≤ 63
  p_eq : σ.checkpoint % 63 ≠ 0 → σ.p = σ.checkpoint % 63
  levturn_le : σ.levturn ≤ 63
  levturn_le_checkpoint : σ.levturn ≤ σ.checkpoint

namespace Scan.Aligned

variable {σ : Scan}

theorem start : Scan.start.Aligned := ⟨by decide, fun h => absurd rfl h, by decide, le_rfl⟩

theorem next (h : σ.Aligned) {n : Nat} (hn : n ≤ σ.levturn + 1) (hlt : σ.levturn ≠ 63) :
    (Scan.mk (σ.checkpoint + 1) n (slotAt σ.checkpoint + 1)).Aligned := by
  obtain ⟨-, -, h₁, h₂⟩ := h
  constructor <;> dsimp only [slotAt] <;> omega

/-- One turn, by the slot at which it looks. -/
theorem turn_eq (h : σ.Aligned) (l : Nat) (s : Kernel) :
    σ.turn l s = if σ.levturn = 63 then .over s.boostDue
      else if s.boostDue.WaitsAt l (slotAt σ.checkpoint) then
        .switch (slotAt σ.checkpoint) ⟨σ.checkpoint + 1, 1, slotAt σ.checkpoint + 1⟩
          ((s.boostDue.addPass (levelWeight l)).dispatch (slotAt σ.checkpoint))
      else .pass ⟨σ.checkpoint + 1, σ.levturn + 1, slotAt σ.checkpoint + 1⟩ s.boostDue := by
  have hp : σ.p < NPROC := Nat.lt_succ_of_le h.p_le
  have hq : (if σ.checkpoint % 63 = 0 then (0 : Slot) else ⟨σ.p, hp⟩) = slotAt σ.checkpoint := by
    unfold slotAt
    split
    · next h0 => exact Fin.ext h0.symm
    · next h0 => exact Fin.ext (h.p_eq h0)
  unfold turn
  rw [dif_pos hp]
  dsimp only
  rw [hq]

/-- The scan is over. -/
theorem over_inv (h : σ.Aligned) {l : Nat} {s t : Kernel} (hturn : σ.turn l s = .over t) :
    σ.levturn = 63 ∧ t = s.boostDue := by
  rw [h.turn_eq] at hturn
  split at hturn
  · next hlt =>
    cases hturn
    exact ⟨hlt, rfl⟩
  · split at hturn <;> cases hturn

theorem pass_inv (h : σ.Aligned) {l : Nat} {σ' : Scan} {s t : Kernel} (hturn : σ.turn l s = .pass σ' t) :
    σ.levturn ≠ 63 ∧ ¬ s.boostDue.WaitsAt l (slotAt σ.checkpoint) ∧
      σ' = ⟨σ.checkpoint + 1, σ.levturn + 1, slotAt σ.checkpoint + 1⟩ ∧ t = s.boostDue := by
  rw [h.turn_eq] at hturn
  split at hturn
  · cases hturn
  · next hlt =>
    split at hturn
    · cases hturn
    · next hwaits =>
      cases hturn
      exact ⟨hlt, hwaits, rfl, rfl⟩

theorem switch_inv (h : σ.Aligned) {l : Nat} {q : Slot} {σ' : Scan} {s t : Kernel} (hturn : σ.turn l s = .switch q σ' t) :
    σ.levturn ≠ 63 ∧ q = slotAt σ.checkpoint ∧ s.boostDue.WaitsAt l q ∧
      σ' = ⟨σ.checkpoint + 1, 1, slotAt σ.checkpoint + 1⟩ ∧ t = (s.boostDue.addPass (levelWeight l)).dispatch q := by
  rw [h.turn_eq] at hturn
  split at hturn
  · cases hturn
  · next hlt =>
    split at hturn
    · next hwaits =>
      cases hturn
      exact ⟨hlt, rfl, hwaits, rfl, rfl⟩
    · cases hturn

end Scan.Aligned

/-- In a circle of 63, the last 63 steps have come past every slot but the last. -/
theorem exists_slotAt {checkpoint : Nat} (h : 63 ≤ checkpoint) {q : Slot} (hq : q ≠ 63) :
    ∃ j < 63, slotAt (checkpoint - 1 - j) = q := by
  have hlt : (q : Nat) < 63 := by
    have hval : (q : Nat) ≠ 63 := fun h => hq (Fin.ext h)
    have := q.isLt
    unfold NPROC at this
    omega
  refine ⟨(checkpoint - 1 - q) % 63, Nat.mod_lt _ (by decide), Fin.ext ?_⟩
  dsimp only [slotAt]
  omega

theorem slotAt_ne (checkpoint : Nat) : slotAt checkpoint ≠ 63 := by
  intro h
  have hval : checkpoint % 63 = 63 := congrArg Fin.val h
  omega

namespace ScanRun

variable {Back : Slot → Kernel → Kernel → Prop} {l : Nat} {s t u : Kernel} {tables : List Kernel}
  {switches : List Switch} {σ : Scan}

theorem aligned (h : ScanRun Back l s tables switches σ t) : σ.Aligned := by
  induction h with
  | start => exact .start
  | pass _ hturn ih =>
    obtain ⟨hlt, -, rfl, -⟩ := ih.pass_inv hturn
    exact ih.next le_rfl hlt
  | switch _ hturn _ ih =>
    obtain ⟨hlt, -, -, rfl, -⟩ := ih.switch_inv hturn
    exact ih.next (Nat.le_add_left 1 _) hlt

/-- Nobody waits where the scan looks. -/
theorem pass_of (h : ScanRun Back l s tables switches σ t) (hlt : σ.levturn ≠ 63)
    (hwaits : ¬ t.boostDue.WaitsAt l (slotAt σ.checkpoint)) :
    ScanRun Back l s (t.boostDue :: tables) switches ⟨σ.checkpoint + 1, σ.levturn + 1, slotAt σ.checkpoint + 1⟩
      t.boostDue := by
  refine h.pass ?_
  rw [h.aligned.turn_eq, if_neg hlt, if_neg hwaits]

/-- Somebody waits where the scan looks. -/
theorem switch_of (h : ScanRun Back l s tables switches σ t) (hlt : σ.levturn ≠ 63)
    (hwaits : t.boostDue.WaitsAt l (slotAt σ.checkpoint))
    (hback : Back (slotAt σ.checkpoint) ((t.boostDue.addPass (levelWeight l)).dispatch (slotAt σ.checkpoint)) u) :
    ScanRun Back l s (t.boostDue :: tables) (⟨slotAt σ.checkpoint, t.boostDue⟩ :: switches)
      ⟨σ.checkpoint + 1, 1, slotAt σ.checkpoint + 1⟩ u := by
  refine h.switch ?_ hback
  rw [h.aligned.turn_eq, if_neg hlt, if_pos hwaits]

/-- When nobody waits in the slots that are left, the scan ends. -/
theorem ends (h : ScanRun Back l s tables switches σ t)
    (hquiet : ∀ i < 63 - σ.levturn, ¬ t.boostDue.WaitsAt l (slotAt (σ.checkpoint + i))) :
    ∃ tables' σ' t', ScanRun Back l s tables' switches σ' t' ∧ σ'.turn l t' = .over t.boostDue := by
  -- Induction on the number of slots that are left.
  induction hn : 63 - σ.levturn generalizing tables σ t with
  | zero =>
    have hle := h.aligned.levturn_le
    refine ⟨tables, σ, t, h, ?_⟩
    rw [h.aligned.turn_eq, if_pos (by omega)]
  | succ n ih =>
    have hnext := h.pass_of (by omega) (hquiet 0 (by omega))
    have hrest : ∀ i < 63 - (σ.levturn + 1), ¬ t.boostDue.boostDue.WaitsAt l (slotAt (σ.checkpoint + 1 + i)) := by
      intro i hi
      rw [Kernel.boostDue_boostDue, Nat.add_assoc, Nat.add_comm 1 i]
      exact hquiet (i + 1) (by omega)
    obtain ⟨tables', σ', t', h', hover⟩ := ih hnext hrest (by dsimp only; omega)
    rw [Kernel.boostDue_boostDue] at hover
    exact ⟨tables', σ', t', h', hover⟩

/-- What a scan has come past since the last switch: the slot of the switch, and slots
    in which nobody waited. -/
theorem seen (h : ScanRun Back l s tables switches σ t) {j : Nat} (hj : j < σ.levturn) :
    slotAt (σ.checkpoint - 1 - j) ∈ switches.map Switch.slot ∨
      ∃ u ∈ tables, ¬ u.WaitsAt l (slotAt (σ.checkpoint - 1 - j)) := by
  induction h generalizing j with
  | start => exact absurd hj (Nat.not_lt_zero j)
  | pass h hturn ih =>
    obtain ⟨-, hwaits, rfl, -⟩ := h.aligned.pass_inv hturn
    cases j with
    | zero => exact .inr ⟨_, List.mem_cons_self, hwaits⟩
    | succ j =>
      have hlt := Nat.lt_of_succ_lt_succ hj
      rw [show ∀ n : Nat, n + 1 - 1 - (j + 1) = n - 1 - j by omega]
      exact (ih hlt).imp id fun ⟨u, hu, hnot⟩ => ⟨u, List.mem_cons_of_mem _ hu, hnot⟩
  | switch h hturn _ ih =>
    obtain ⟨-, rfl, -, rfl, -⟩ := h.aligned.switch_inv hturn
    obtain rfl : j = 0 := Nat.lt_one_iff.mp hj
    exact .inl List.mem_cons_self

/-- The last slot is not among those that are looked at. -/
theorem switch_ne_last (h : ScanRun Back l s tables switches σ t) : (63 : Slot) ∉ switches.map Switch.slot := by
  induction h with
  | start => exact List.not_mem_nil
  | pass _ _ ih => exact ih
  | switch h hturn _ ih =>
    obtain ⟨-, rfl, -⟩ := h.aligned.switch_inv hturn
    rw [List.map_cons, List.mem_cons, not_or]
    exact ⟨(slotAt_ne _).symm, ih⟩

/-- Who has waited in level `l` at every turn of a scan that is over, but not in the last
    slot, has been chosen. -/
theorem mem_of_waits (h : ScanRun Back l s tables switches σ t) (hover : σ.turn l t = .over u) {q : Slot} (hq : q ≠ 63)
    (hwaits : ∀ u ∈ tables, u.WaitsAt l q) : q ∈ switches.map Switch.slot := by
  obtain ⟨hlt, -⟩ := h.aligned.over_inv hover
  obtain ⟨j, hj, rfl⟩ := exists_slotAt (hlt ▸ h.aligned.levturn_le_checkpoint) hq
  refine (h.seen (hlt ▸ hj)).resolve_right ?_
  rintro ⟨u, hu, hnot⟩
  exact hnot (hwaits u hu)

/-- Without a switch the table changes only by boosting. -/
theorem quiet (h : ScanRun Back l s tables [] σ t) : t.boostDue = s.boostDue ∧ ∀ u ∈ tables, u = s.boostDue := by
  generalize hnil : ([] : List Switch) = switches at h
  induction h with
  | start => exact ⟨rfl, fun u hu => absurd hu List.not_mem_nil⟩
  | pass h hturn ih =>
    obtain ⟨-, -, -, rfl⟩ := h.aligned.pass_inv hturn
    obtain ⟨hs, hall⟩ := ih hnil
    rw [Kernel.boostDue_boostDue]
    refine ⟨hs, fun u hu => ?_⟩
    rcases List.mem_cons.mp hu with rfl | hu
    · exact hs
    · exact hall u hu
  | switch => cases hnil

end ScanRun

/-! ## Work conservation -/

/-- A call without a switch boosts at most, and in every level it has passed nobody waits
    but in the last slot. -/
theorem MlfqRun.quiet {Back : Nat → Slot → Kernel → Kernel → Prop} {s t : Kernel} {l : Nat}
    (h : MlfqRun Back s l [] t) : t.boostDue = s.boostDue ∧ (0 < l → t = s.boostDue) ∧
      ∀ m < l, ∀ q, q ≠ 63 → ¬ s.boostDue.WaitsAt m q := by
  generalize hnil : ([] : List Switch) = switches at h
  induction h with
  | start => exact ⟨rfl, fun h => absurd h (Nat.lt_irrefl 0), fun m hm => absurd hm (Nat.not_lt_zero m)⟩
  | level h hscan hover ih =>
    obtain ⟨rfl, rfl⟩ := List.append_eq_nil_iff.mp hnil.symm
    obtain ⟨ht, -, hlevels⟩ := ih rfl
    obtain ⟨hu, htables⟩ := hscan.quiet
    obtain ⟨-, rfl⟩ := hscan.aligned.over_inv hover
    rw [Kernel.boostDue_boostDue, hu, ht]
    refine ⟨rfl, fun _ => rfl, fun m hm q hq hwaits => ?_⟩
    rcases Nat.lt_succ_iff_lt_or_eq.mp hm with hm | rfl
    · exact hlevels m hm q hq hwaits
    · have hmem := hscan.mem_of_waits hover hq fun u hu => by
        rw [htables u hu, ht]
        exact hwaits
      exact absurd hmem List.not_mem_nil

theorem Kernel.addPass_waits {s : Kernel} {n : ℚ} {q : Slot} : (s.addPass n).Waits q ↔ s.Waits q := by
  unfold addPass
  split <;> exact Iff.rfl

/-- A scan that is over has chosen everybody who waited in its level at every turn exactly
    if the process in the last slot did not. A call that has chosen nobody, with all
    priorities in 0, 1 and 2, leaves nobody waiting exactly if the process in the last slot
    did not wait. -/
theorem scan_complete_iff {Back : Nat → Slot → Kernel → Kernel → Prop} {l : Nat} {s t u : Kernel}
    {tables : List Kernel} {switches : List Switch} {σ : Scan}
    (h : ScanRun (Back l) l s tables switches σ t) (hover : σ.turn l t = .over u) :
    ((∀ q, (∀ v ∈ tables, v.WaitsAt l q) → q ∈ switches.map Switch.slot) ↔ ¬ ∀ v ∈ tables, v.WaitsAt l 63) ∧
      ∀ v, (∀ q, (s.proc q).priority ≤ 2) → MlfqCall Back s [] v → ((∀ q, ¬ v.Waits q) ↔ ¬ s.Waits 63) := by
  refine ⟨⟨fun hall hlast => h.switch_ne_last (hall 63 hlast), fun hlast q hq => ?_⟩, ?_⟩
  · by_cases hq63 : q = 63
    · exact absurd (hq63 ▸ hq) hlast
    · exact h.mem_of_waits hover hq63 hq
  · rintro _ hle ⟨v, hcall, rfl⟩
    obtain ⟨-, hv, hlevels⟩ := hcall.quiet
    obtain rfl := hv (by decide)
    simp only [Kernel.addPass_waits, Kernel.boostDue_waits]
    refine ⟨fun hnone => hnone 63, fun hlast q hq => ?_⟩
    by_cases hq63 : q = 63
    · exact hlast (hq63 ▸ hq)
    · have hm : (s.boostDue.proc q).priority < 3 := by
        have := hle q
        rcases Kernel.boostDue_priority hq with h | h <;> omega
      exact hlevels _ hm q hq63 ⟨Kernel.boostDue_waits.mpr hq, rfl⟩

/-- All slots are taken, and only the process in slot `q` waits, in the first level. -/
def onlyWaiting (q : Slot) : Kernel :=
  { boot 0 1 0 with proc := fun p =>
      { Proc.init 0 1 with isMLFQ := true, state := if p = q then .runnable else .sleeping } }

theorem onlyWaiting_waits {p q : Slot} : (onlyWaiting q).Waits p ↔ p = q := by
  unfold Kernel.Waits onlyWaiting
  dsimp only
  split
  · next h => exact iff_of_true ⟨rfl, rfl⟩ h
  · next h => exact iff_of_false (fun h => absurd h.2 (by decide)) h

theorem onlyWaiting_boostDue {q : Slot} : (onlyWaiting q).boostDue = onlyWaiting q := if_neg (by decide +revert)

/-- The process in slot 0 is chosen, comes back, and waits again. -/
theorem scan_complete_iff_zero : ∃ tables switches σ t u,
    ScanRun (fun _ _ _ => True) 0 (onlyWaiting 0) tables switches σ t ∧ σ.turn 0 t = .over u ∧
    switches.map Switch.slot = [0] ∧
    ((∀ q, (∀ v ∈ tables, v.WaitsAt 0 q) → q ∈ switches.map Switch.slot) ↔ ¬ ∀ v ∈ tables, v.WaitsAt 0 63) := by
  have hwaits : (onlyWaiting 0).boostDue.WaitsAt 0 (slotAt 0) := by
    rw [onlyWaiting_boostDue]
    exact ⟨onlyWaiting_waits.mpr rfl, rfl⟩
  have hstart : ScanRun (fun _ _ _ => True) 0 (onlyWaiting 0) [] [] .start (onlyWaiting 0) := .start
  obtain ⟨tables, σ, t, hscan, hover⟩ := (hstart.switch_of (u := onlyWaiting 0) (by decide) hwaits trivial).ends
    fun i hi hwaits => by
      rw [onlyWaiting_boostDue] at hwaits
      have hval : (0 + 1 + i) % 63 = 0 := congrArg Fin.val (onlyWaiting_waits.mp hwaits.1)
      dsimp only at hi
      omega
  exact ⟨tables, _, σ, t, _, hscan, hover, rfl, (@scan_complete_iff (fun _ _ _ _ => True) _ _ _ _ _ _ _ hscan hover).1⟩

/-- While nobody waits in a level, but perhaps in the last slot, its scan comes to an end
    without a switch. -/
theorem MlfqRun.exists_quiet {Back : Nat → Slot → Kernel → Kernel → Prop} {s : Kernel} {l : Nat}
    (h : ∀ m < l, ∀ q, q ≠ 63 → ¬ s.boostDue.WaitsAt m q) :
    ∃ t, MlfqRun Back s l [] t ∧ t.boostDue = s.boostDue := by
  induction l with
  | zero => exact ⟨s, .start, rfl⟩
  | succ l ih =>
    obtain ⟨t, hrun, ht⟩ := ih fun m hm => h m (Nat.lt_succ_of_lt hm)
    have hstart : ScanRun (Back l) l t [] [] .start t := .start
    obtain ⟨tables, σ, u, hscan, hover⟩ := hstart.ends fun i _ hwaits =>
      h l (Nat.lt_succ_self l) _ (slotAt_ne _) (ht ▸ hwaits)
    exact ⟨t.boostDue, .level hrun hscan hover, Kernel.boostDue_boostDue.trans ht⟩

/-- Only the process in the last slot waits. The scan of its level ends without having
    chosen it, and so does the call. -/
theorem last_slot_overlooked : (∃ tables σ t u, ScanRun (fun _ _ _ => True) 0 (onlyWaiting 63) tables [] σ t ∧
      σ.turn 0 t = .over u ∧ ∀ v ∈ tables, v.WaitsAt 0 63) ∧
    ∃ t, MlfqCall (fun _ _ _ _ => True) (onlyWaiting 63) [] t ∧ t.Waits 63 := by
  have hquiet : ∀ q, q ≠ 63 → ¬ (onlyWaiting 63).Waits q := fun q hq h => hq (onlyWaiting_waits.mp h)
  constructor
  · have hstart : ScanRun (fun _ _ _ => True) 0 (onlyWaiting 63) [] [] .start (onlyWaiting 63) := .start
    obtain ⟨tables, σ, t, hscan, hover⟩ := hstart.ends fun i _ hwaits =>
      hquiet _ (slotAt_ne _) (Kernel.boostDue_waits.mp hwaits.1)
    refine ⟨tables, σ, t, _, hscan, hover, fun v hv => ?_⟩
    rw [hscan.quiet.2 v hv, onlyWaiting_boostDue]
    exact ⟨onlyWaiting_waits.mpr rfl, rfl⟩
  · obtain ⟨t, hrun, ht⟩ := @MlfqRun.exists_quiet (fun _ _ _ _ => True) (onlyWaiting 63) 3 fun m _ q hq hw =>
      hquiet q hq (Kernel.boostDue_waits.mp hw.1)
    refine ⟨t.addPass 1, ⟨t, hrun, rfl⟩, Kernel.addPass_waits.mpr (Kernel.boostDue_waits.mp ?_)⟩
    rw [ht, onlyWaiting_boostDue]
    exact onlyWaiting_waits.mpr rfl

end Xv6
