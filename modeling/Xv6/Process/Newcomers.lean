-- SUMMARY: The pass value of threads that come into stride mode.
import Mathlib.Order.Bounds.Basic
import Xv6.Process.Shares
import Xv6.Scheduler.MinPass

/-! # Newcomers

Threads that `set_cpu_share` or `thread_create` puts into stride mode are to start from
the smallest pass value of all that share the CPU. `findMinPass` returns a null pointer
where this is MLFQPassVal. `cpu_share` looks for it, and `thread_create` follows it.
-/

namespace Xv6

open Prog

namespace Kernel

variable (s : Kernel)

/-- MLFQPassVal and the pass values of the RUNNABLE processes in stride mode. -/
def passes : Set ℚ := insert s.mlfqPassVal { x | ∃ p, s.Contends p ∧ (s.proc p).pass = x }

/-- The pass value that `cpu_share` gives. -/
def sharePass : ℚ :=
  match s.findMinPass with
  | none => s.mlfqPassVal
  | some q => (s.proc q).pass

/-- What integral parts must tell `cpu_share`: as for `findMinPass`, but which of two
    equal values it takes makes no difference. -/
def WholesTellShare : Prop := ∀ p, s.LeastPass p →
  (s.mlfqPassVal < (s.proc p).pass → (passBound : ℚ) ≤ (s.proc p).pass ∨ s.mlfqPassVal < ⌊(s.proc p).pass⌋) ∧
  (¬ s.mlfqPassVal < (s.proc p).pass →
    (s.mlfqPassVal = (s.proc p).pass ∧ (passBound : ℚ) ≤ (s.proc p).pass) ∨
    ((s.proc p).pass < passBound ∧ ∃ q, s.LeastPass q ∧ s.FirstWhole q))

/-- What they must tell `thread_create`: that there is a process with the smallest pass
    value. -/
def WholesTellCreate : Prop :=
  ∃ q, s.LeastPass q ∧ s.FirstWhole q ∧ ¬ s.mlfqPassVal < (s.proc q).pass ∧ (s.proc q).pass < passBound

/-- Of negative pass values the last one in the table must be the smallest. What remains of
    it in an `unsigned int` is not above MLFQPassVal, nor above a pass value behind it. -/
def NegativeTells : Prop := ∃ v, s.LastNegative v ∧ s.LeastPass v ∧
  (uintOfPass (s.proc v).pass : ℚ) ≤ s.mlfqPassVal ∧
  ∀ q, v < q → s.Contends q → (uintOfPass (s.proc v).pass : ℚ) ≤ (s.proc q).pass

/-- `findMinPass` tells `cpu_share` the smallest pass value. With negative pass values it
    also does if that is MLFQPassVal. -/
def TellsShare : Prop :=
  (s.PassesNonneg ∧ s.WholesTellShare) ∨
    (¬ s.PassesNonneg ∧ ((∀ p, s.Contends p → s.mlfqPassVal ≤ (s.proc p).pass) ∨ s.NegativeTells))

/-- `findMinPass` tells `thread_create` the smallest pass value. -/
def TellsCreate : Prop := (s.PassesNonneg ∧ s.WholesTellCreate) ∨ (¬ s.PassesNonneg ∧ s.NegativeTells)

variable {s}

theorem isLeast_mlfqPassVal_iff : IsLeast s.passes s.mlfqPassVal ↔ ∀ p, s.Contends p → s.mlfqPassVal ≤ (s.proc p).pass := by
  constructor
  · exact fun h p hp => h.2 (.inr ⟨p, hp, rfl⟩)
  · refine fun h => ⟨.inl rfl, ?_⟩
    rintro x (rfl | ⟨p, hp, rfl⟩)
    · exact le_rfl
    · exact h p hp

theorem isLeast_pass_iff {m : Slot} (hm : s.Contends m) :
    IsLeast s.passes (s.proc m).pass ↔ s.LeastPass m ∧ ¬ s.mlfqPassVal < (s.proc m).pass := by
  constructor
  · exact fun h => ⟨⟨hm, fun q hq => h.2 (.inr ⟨q, hq, rfl⟩)⟩, not_lt.mpr (h.2 (.inl rfl))⟩
  · refine fun ⟨hleast, hge⟩ => ⟨.inr ⟨m, hm, rfl⟩, ?_⟩
    rintro x (rfl | ⟨p, hp, rfl⟩)
    · exact not_lt.mp hge
    · exact hleast.2 p hp

theorem isLeast_sharePass_of_nonneg (hpos : s.PassesNonneg) : IsLeast s.passes s.sharePass ↔ s.WholesTellShare := by
  have hfound := minFound hpos
  unfold sharePass
  generalize s.findMinPass = r at hfound
  cases hfound with
  | outOfBounds hall =>
    rw [isLeast_mlfqPassVal_iff]
    constructor
    · refine fun h p hp => ⟨fun _ => .inl (hall p hp.1), fun hge => .inl ⟨?_, hall p hp.1⟩⟩
      exact le_antisymm (h p hp.1) (not_lt.mp hge)
    · intro h p hp
      obtain ⟨q, hq⟩ := exists_leastPass hp
      by_cases hless : s.mlfqPassVal < (s.proc q).pass
      · exact hless.le.trans (hq.2 p hp)
      · rcases (h q hq).2 hless with ⟨heq, -⟩ | ⟨hlt, -⟩
        · exact heq.trans_le (hq.2 p hp)
        · exact absurd hlt (not_lt.mpr (hall q hq.1))
  | @mlfq m hm hlt hless hwhole =>
    rw [isLeast_mlfqPassVal_iff]
    constructor
    · refine fun _ p hp => ⟨fun _ => .inr ?_, fun hge => absurd (hp.lt_of_floor hwhole hless) hge⟩
      rwa [hwhole p hp]
    · intro _ p hp
      obtain ⟨q, hq⟩ := exists_leastPass hp
      exact (hq.lt_of_floor hwhole hless).le.trans (hq.2 p hp)
  | @first m hm hlt hge hwhole hiff =>
    rw [isLeast_pass_iff hm]
    constructor
    · rintro ⟨hleast, hnot⟩ p hp
      rw [hp.pass_eq hleast]
      exact ⟨fun hless => absurd hless hnot, fun _ => .inr ⟨hlt, hiff.mp hleast⟩⟩
    · intro h
      obtain ⟨p, hp⟩ := exists_leastPass hm
      have hbound : (s.proc p).pass < passBound := (hp.2 m hm).trans_lt hlt
      have hnot : ¬ s.mlfqPassVal < (s.proc p).pass := by
        intro hless
        rcases (h p hp).1 hless with hout | hout
        · exact absurd hbound (not_lt.mpr hout)
        · rw [hwhole p hp] at hout
          exact hge hout
      have hleast : s.LeastPass m := by
        rcases (h p hp).2 hnot with ⟨-, hout⟩ | ⟨-, hfirst⟩
        · exact absurd hbound (not_lt.mpr hout)
        · exact hiff.mpr hfirst
      exact ⟨hleast, hp.pass_eq hleast ▸ hnot⟩

/-- No value is right whatever is read through a null pointer. -/
theorem not_isLeast_junk : ¬ ∀ junk, IsLeast s.passes junk := fun h => zero_ne_one ((h 0).unique (h 1))

theorem isLeast_createPass_of_nonneg (hpos : s.PassesNonneg) :
    (∀ junk, IsLeast s.passes (s.createPass junk)) ↔ s.WholesTellCreate := by
  have hfound := minFound hpos
  unfold createPass
  generalize s.findMinPass = r at hfound
  cases hfound with
  | outOfBounds hall =>
    refine iff_of_false not_isLeast_junk ?_
    rintro ⟨q, hq, -, -, hlt⟩
    exact absurd hlt (not_lt.mpr (hall q hq.1))
  | @mlfq m hm hlt hless hwhole =>
    refine iff_of_false not_isLeast_junk ?_
    rintro ⟨q, hq, -, hnot, -⟩
    exact hnot (hq.lt_of_floor hwhole hless)
  | @first m hm hlt hge hwhole hiff =>
    dsimp only
    rw [forall_const, isLeast_pass_iff hm]
    constructor
    · rintro ⟨hleast, hnot⟩
      obtain ⟨q, hq, hfirst⟩ := hiff.mp hleast
      rw [hleast.pass_eq hq] at hnot hlt
      exact ⟨q, hq, hfirst, hnot, hlt⟩
    · rintro ⟨q, hq, hfirst, hnot, -⟩
      have hleast := hiff.mpr ⟨q, hq, hfirst⟩
      exact ⟨hleast, hq.pass_eq hleast ▸ hnot⟩

theorem LastNegative.eq {v w : Slot} (hv : s.LastNegative v) (hw : s.LastNegative w) : v = w := by
  rcases lt_trichotomy v w with hlt | heq | hlt
  · exact absurd hw.neg (not_lt.mpr (hv.last w hlt hw.contends))
  · exact heq
  · exact absurd hv.neg (not_lt.mpr (hw.last v hlt hv.contends))

/-- A process with a negative pass value that is found is the last one. -/
theorem isLeast_last_iff {v : Slot} (hv : s.LastNegative v) (hge : (uintOfPass (s.proc v).pass : ℚ) ≤ s.mlfqPassVal)
    (hall : ∀ q, v < q → s.Contends q → (uintOfPass (s.proc v).pass : ℚ) ≤ (s.proc q).pass) :
    IsLeast s.passes (s.proc v).pass ↔ s.NegativeTells := by
  rw [isLeast_pass_iff hv.contends]
  constructor
  · exact fun ⟨hleast, _⟩ => ⟨v, hv, hleast, hge, hall⟩
  · rintro ⟨w, hw, hleast, -, -⟩
    obtain rfl := hv.eq hw
    exact ⟨hleast, not_lt.mpr (hv.neg.le.trans ((Nat.cast_nonneg _).trans hge))⟩

/-- The smallest pass value is negative. -/
theorem not_isLeast_nonneg {v m : Slot} (hv : s.LastNegative v) (hm : 0 ≤ (s.proc m).pass) :
    ¬ IsLeast s.passes (s.proc m).pass :=
  fun h => absurd (h.2 (.inr ⟨v, hv.contends, rfl⟩)) (not_le.mpr (hv.neg.trans_le hm))

theorem not_negativeTells_of_lt {v q : Slot} (hv : s.LastNegative v) (hq : v < q) (hcont : s.Contends q)
    (hlt : (s.proc q).pass < uintOfPass (s.proc v).pass) : ¬ s.NegativeTells := by
  rintro ⟨w, hw, -, -, hall⟩
  obtain rfl := hv.eq hw
  exact absurd hlt (not_lt.mpr (hall q hq hcont))

theorem not_negativeTells_of_mlfq {v : Slot} (hv : s.LastNegative v)
    (h : (∀ q, v < q → s.Contends q → (uintOfPass (s.proc v).pass : ℚ) ≤ (s.proc q).pass) →
      s.mlfqPassVal < uintOfPass (s.proc v).pass) : ¬ s.NegativeTells := by
  rintro ⟨w, hw, -, hge, hall⟩
  obtain rfl := hv.eq hw
  exact absurd (h hall) (not_lt.mpr hge)

/-- `cpu_share` takes the smallest of all pass values. -/
theorem isLeast_sharePass_iff : IsLeast s.passes s.sharePass ↔ s.TellsShare := by
  unfold TellsShare
  by_cases hpos : s.PassesNonneg
  · simp only [hpos, true_and, not_true, false_and, or_false]
    exact isLeast_sharePass_of_nonneg hpos
  simp only [hpos, false_and, false_or, not_false_eq_true, true_and]
  obtain ⟨v, hv⟩ := exists_lastNegative hpos
  -- MLFQPassVal is not the smallest value unless it is negative.
  have hmlfq : 0 ≤ s.mlfqPassVal → ¬ ∀ p, s.Contends p → s.mlfqPassVal ≤ (s.proc p).pass := fun hge hall =>
    absurd (hge.trans (hall v hv.contends)) (not_le.mpr hv.neg)
  have hfound := negativeFound hv
  unfold sharePass
  generalize s.findMinPass = r at hfound
  cases hfound with
  | mlfq h =>
    rw [isLeast_mlfqPassVal_iff]
    exact (or_iff_left (not_negativeTells_of_mlfq hv h)).symm
  | last hge hall =>
    rw [or_iff_right (hmlfq ((Nat.cast_nonneg _).trans hge))]
    exact isLeast_last_iff hv hge hall
  | other hge hm hnonneg hq hcont hlt =>
    rw [or_iff_right (hmlfq hge)]
    exact iff_of_false (not_isLeast_nonneg hv hnonneg) (not_negativeTells_of_lt hv hq hcont hlt)

/-- `thread_create` takes the smallest of all pass values, whatever it reads through a null
    pointer. -/
theorem isLeast_createPass_iff : (∀ junk, IsLeast s.passes (s.createPass junk)) ↔ s.TellsCreate := by
  unfold TellsCreate
  by_cases hpos : s.PassesNonneg
  · simp only [hpos, true_and, not_true, false_and, or_false]
    exact isLeast_createPass_of_nonneg hpos
  simp only [hpos, false_and, false_or, not_false_eq_true, true_and]
  obtain ⟨v, hv⟩ := exists_lastNegative hpos
  have hfound := negativeFound hv
  unfold createPass
  generalize s.findMinPass = r at hfound
  cases hfound with
  | mlfq h => exact iff_of_false not_isLeast_junk (not_negativeTells_of_mlfq hv h)
  | last hge hall =>
    dsimp only
    rw [forall_const]
    exact isLeast_last_iff hv hge hall
  | other hge hm hnonneg hq hcont hlt =>
    dsimp only
    rw [forall_const]
    exact iff_of_false (not_isLeast_nonneg hv hnonneg) (not_negativeTells_of_lt hv hq hcont hlt)

end Kernel

/-! ## set_cpu_share -/

namespace Kernel

variable (s : Kernel) (c : Slot) (share : Int)

/-- `set_cpu_share` turns the request down. -/
def Refuses : Prop := s.leftShare - share < 20 ∨ share = 0

/-- `cpu share overflow`. -/
def TooMuch (m : Slot) : Prop := 100 < wrap ((s.proc m).totalshare + share)

/-- `cpu_share` of `c` is for all threads of its process. -/
def ForAll : Prop := ((s.proc c).isMainThread = true ∧ 1 < (s.proc c).cntThread) ∨ (s.proc c).isThread = true

/-- The threads that `cpu_share` of `c` puts into stride mode. -/
def Moved (q : Slot) : Prop := (s.ForAll c ∧ (s.proc q).pid = (s.proc c).pid) ∨ (¬ s.ForAll c ∧ q = c)

/-- `cpu_share` reads the number of threads from the parent of `c`. -/
def AsksParent : Prop :=
  (s.proc c).isThread = true ∧ ¬ ((s.proc c).isMainThread = true ∧ 1 < (s.proc c).cntThread)

/-- The request is granted, and the threads start from the smallest pass value. No null
    pointer is followed. -/
def SharesAtMinimum : Prop :=
  wp (setCpuShare c share)
    (fun _ t => ¬ s.Refuses share → ∀ q, s.Moved c q → IsLeast s.passes (t.proc q).pass) (· = .shareOverflow) s

variable {s c share}

/-- `findMinPass` looks at this only. -/
theorem findMinPass_congr {t : Kernel} (hmlfq : t.mlfqPassVal = s.mlfqPassVal)
    (h : ∀ q, (t.proc q).isMLFQ = (s.proc q).isMLFQ ∧ (t.proc q).state = (s.proc q).state ∧
      (t.proc q).pass = (s.proc q).pass) : t.findMinPass = s.findMinPass := by
  have hstep : t.minPassStep = s.minPassStep := by
    funext r q
    unfold minPassStep
    rw [(h q).1, (h q).2.1, (h q).2.2]
  unfold findMinPass
  rw [hstep, hmlfq]

/-- A request changes no more than what is recorded. -/
theorem charged_proc (m q : Slot) : ∃ n, (s.charged m share).resetStride.proc q = { s.proc q with totalshare := n } := by
  rw [resetStride_proc]
  by_cases hq : q = m
  · subst hq
    exact ⟨_, charged_proc_same⟩
  · exact ⟨_, charged_proc_ne hq⟩

theorem sharePass_charged {m : Slot} : (s.charged m share).resetStride.sharePass = s.sharePass := by
  have hfind : (s.charged m share).resetStride.findMinPass = s.findMinPass := by
    refine findMinPass_congr rfl fun q => ?_
    obtain ⟨n, hq⟩ := @charged_proc s share m q
    rw [hq]
    exact ⟨rfl, rfl, rfl⟩
  unfold sharePass
  rw [hfind]
  cases s.findMinPass with
  | none => rfl
  | some q =>
    obtain ⟨n, hq⟩ := @charged_proc s share m q
    dsimp only
    rw [hq]

theorem moved_charged {m q : Slot} : (s.charged m share).resetStride.Moved c q ↔ s.Moved c q := by
  obtain ⟨n, hc⟩ := @charged_proc s share m c
  obtain ⟨n', hq⟩ := @charged_proc s share m q
  unfold Moved ForAll
  rw [hc, hq]

theorem asksParent_charged {m : Slot} : (s.charged m share).resetStride.AsksParent c ↔ s.AsksParent c := by
  obtain ⟨n, hc⟩ := @charged_proc s share m c
  unfold AsksParent
  rw [hc]

/-- All who come into stride mode get the same pass value. -/
theorem wp_assignStrides_pass : wp (assignStrides c share)
    (fun _ t => (s.AsksParent c → (s.proc c).parent ≠ none) ∧ ∀ q, s.Moved c q → (t.proc q).pass = s.sharePass)
    (fun e => e = .nullProc ∧ s.AsksParent c ∧ (s.proc c).parent = none) s := by
  have hall : ∀ d sh, s.ForAll c → ∀ q, s.Moved c q →
      (((s.noteDivisor d).restride (s.proc c).pid sh s.sharePass).proc q).pass = s.sharePass := by
    intro d sh hforall q hq
    rcases hq with ⟨-, hpid⟩ | ⟨hnot, -⟩
    · rw [restride_proc, noteDivisor_proc, if_pos hpid]
      rfl
    · exact absurd hforall hnot
  simp only [assignStrides, wp_bind, wp_get, wp_procOf]
  split
  · next h => exact ⟨fun hask => absurd h hask.2, hall _ _ (.inl h)⟩
  · next h =>
    split
    · next hthread =>
      rw [wp_bind, wp_derefProc]
      refine ⟨fun hnone => ⟨rfl, ⟨hthread, h⟩, hnone⟩, fun m hm => ⟨fun _ hnone => ?_, hall _ _ (.inr hthread)⟩⟩
      rw [hnone] at hm
      cases hm
    · next hthread =>
      refine ⟨fun hask => absurd hask.1 hthread, ?_⟩
      rintro q (⟨hforall, -⟩ | ⟨-, rfl⟩)
      · exact (hforall.elim h hthread).elim
      · rw [upd_proc_same]
        rfl

/-- A request that is granted: some slot records it, it is not too much, and the number of
    threads can be read. -/
def Grants (s : Kernel) (c : Slot) (share : Int) : Prop :=
  ∃ m, s.payer c = some m ∧ ¬ s.TooMuch share m ∧ (s.AsksParent c → (s.proc c).parent ≠ none)

/-- What `set_cpu_share` comes to. -/
theorem wp_setCpuShare_pass : wp (setCpuShare c share)
    (fun _ t => ¬ s.Refuses share → s.Grants c share ∧ ∀ q, s.Moved c q → (t.proc q).pass = s.sharePass)
    (fun e => ¬ s.Refuses share ∧
      ((e = .shareOverflow ∧ ∃ m, s.payer c = some m ∧ s.TooMuch share m) ∨
        (e = .nullProc ∧ ∀ m, s.payer c = some m → ¬ s.TooMuch share m ∧ s.AsksParent c ∧ (s.proc c).parent = none))) s := by
  refine wp_setCpuShare (fun hno hyes => absurd hno hyes) fun hleft hne => ?_
  have hgrant : ¬ s.Refuses share := by
    rintro (h | h)
    · exact absurd hleft (not_le.mpr h)
    · exact hne h
  refine ⟨fun hnone => ⟨hgrant, .inr ⟨rfl, fun m hm => ?_⟩⟩,
    fun m hm => ⟨fun hover => ⟨hgrant, .inl ⟨rfl, m, hm, hover⟩⟩, fun hle => ?_⟩⟩
  · rw [hnone] at hm
    cases hm
  · obtain ⟨n, hc⟩ := @charged_proc s share m c
    refine wp_assignStrides_pass.mono (fun _ t ht _ => ?_) fun e he => ⟨hgrant, .inr ⟨he.1, fun m' hm' => ?_⟩⟩
    · rw [asksParent_charged, hc, sharePass_charged] at ht
      exact ⟨⟨m, hm, not_lt.mpr hle, ht.1⟩, fun q hq => ht.2 q (moved_charged.mpr hq)⟩
    · obtain rfl := Option.some.inj (hm.symm.trans hm')
      rw [asksParent_charged, hc] at he
      exact ⟨not_lt.mpr hle, he.2⟩

theorem moved_self : s.Moved c c := by
  by_cases h : s.ForAll c
  · exact .inl ⟨h, rfl⟩
  · exact .inr ⟨h, rfl⟩

/-- The request is refused, or there is a slot that records it; then it is too much, or the
    number of threads can be read and `findMinPass` tells the smallest pass value. -/
def SharesOk (s : Kernel) (c : Slot) (share : Int) : Prop :=
  s.Refuses share ∨ ∃ m, s.payer c = some m ∧
    (s.TooMuch share m ∨ ((s.AsksParent c → (s.proc c).parent ≠ none) ∧ s.TellsShare))

theorem sharesAtMinimum_iff : s.SharesAtMinimum c share ↔ s.SharesOk c share := by
  have hexact := @wp_setCpuShare_pass s c share
  constructor
  · intro h
    by_cases hgrant : s.Refuses share
    · exact .inl hgrant
    · refine .inr ?_
      unfold SharesAtMinimum wp at h
      unfold wp at hexact
      cases hrun : setCpuShare c share s with
      | ok r =>
        rw [hrun] at h hexact
        obtain ⟨⟨m, hm, -, hask⟩, hpass⟩ := hexact hgrant
        refine ⟨m, hm, .inr ⟨hask, isLeast_sharePass_iff.mp ?_⟩⟩
        rw [← hpass c moved_self]
        exact h hgrant c moved_self
      | error e =>
        rw [hrun] at h hexact
        rcases hexact.2 with ⟨-, m, hm, hover⟩ | ⟨hnull, -⟩
        · exact ⟨m, hm, .inl hover⟩
        · exact absurd (h.symm.trans hnull) (by decide)
  · intro hok
    refine hexact.mono (fun _ t ht hgrant q hq => ?_) fun e he => ?_
    · obtain ⟨⟨m, hm, hnot, -⟩, hpass⟩ := ht hgrant
      obtain ⟨m', hm', hrest⟩ := hok.resolve_left hgrant
      obtain rfl := Option.some.inj (hm.symm.trans hm')
      rw [hpass q hq, isLeast_sharePass_iff]
      exact (hrest.resolve_left hnot).2
    · obtain ⟨m, hm, hrest⟩ := hok.resolve_left he.1
      rcases he.2 with ⟨hover, -⟩ | ⟨-, hnull⟩
      · exact hover
      · obtain ⟨hnot, hask, hnone⟩ := hnull m hm
        exact absurd hnone ((hrest.resolve_left hnot).1 hask)

end Kernel

/-! ## thread_create -/

namespace Kernel

variable (s : Kernel) (c : Slot) (stack : Option Page)

/-- `thread_create` of `c` gets a slot and a kernel stack, and `c` is in stride mode. -/
def Restrides : Prop :=
  (s.proc c).isThread = false ∧ s.freeSlot ≠ none ∧ stack ≠ none ∧ (s.proc c).isMLFQ = false

/-- The threads of the process start again from the smallest pass value, whatever is read
    through a null pointer. -/
def CreatesAtMinimum : Prop := ∀ junk, wp (threadCreate c stack junk)
  (fun _ t => s.Restrides c stack → ∀ q, (t.proc q).pid = (s.proc c).pid → IsLeast s.passes (t.proc q).pass)
  (· = .filedup) s

/-- No thread is created, or `findMinPass` tells the smallest pass value. -/
def CreatesOk : Prop := s.Restrides c stack → s.files.Unreferenced c ∨ s.TellsCreate

variable {s c stack} {p q : Slot} {k : Page} {pass : ℚ} {f : Files}

theorem split_pass {x : Proc} (hmode : (s.proc c).isMLFQ = false) (hpid : (s.split c pass x).pid = (s.proc c).pid) :
    (s.split c pass x).pass = pass := by
  unfold split at hpid ⊢
  split
  · rfl
  · next h =>
    rw [if_neg h] at hpid
    exact absurd ⟨hmode, hpid⟩ h

/-- All threads of a process in stride mode get the same pass value. -/
theorem threaded_pass (hc : c ≠ p) (hmode : (s.proc c).isMLFQ = false)
    (hpid : ((s.threaded c p k pass f).proc q).pid = (s.proc c).pid) :
    ((s.threaded c p k pass f).proc q).pass = pass := by
  obtain ⟨x, hx, hx'⟩ : ∃ x, ((s.threaded c p k pass f).proc q).pid = (s.split c pass x).pid ∧
      ((s.threaded c p k pass f).proc q).pass = (s.split c pass x).pass := by
    refine ⟨(s.counted c p k).proc q, ?_⟩
    unfold threaded
    rw [setFiles_proc, ← reshared_counted hc]
    by_cases hq : q = p
    · rw [hq, upd_proc_same]
      exact ⟨rfl, rfl⟩
    · rw [upd_proc_ne _ _ hq]
      exact ⟨rfl, rfl⟩
  rw [hx']
  exact split_pass hmode (hx.symm.trans hpid)

theorem threaded_pid (hc : c ≠ p) : ((s.threaded c p k pass f).proc c).pid = (s.proc c).pid := by
  obtain ⟨m, sh, st, pa, n, h⟩ := s.threaded_proc_ne k pass f hc
  rw [h]
  rfl

/-- What `thread_create` comes to. -/
theorem wp_threadCreate_pass (hc : s.Used c) (junk : ℚ) : wp (threadCreate c stack junk)
    (fun _ t => s.Restrides c stack → ¬ s.files.Unreferenced c ∧ (t.proc c).pid = (s.proc c).pid ∧
      ∀ q, (t.proc q).pid = (s.proc c).pid → (t.proc q).pass = s.createPass junk)
    (fun e => e = .filedup ∧ s.files.Unreferenced c) s := by
  -- The last step leaves pid and pass as they are.
  have hlast : ∀ (p k pass f) (t : Kernel), s.freeSlot = some p → pass = s.createPass junk → ¬ s.files.Unreferenced c →
      (∀ q, (t.proc q).pid = ((s.threaded c p k pass f).proc q).pid ∧
        (t.proc q).pass = ((s.threaded c p k pass f).proc q).pass) →
      s.Restrides c stack → ¬ s.files.Unreferenced c ∧ (t.proc c).pid = (s.proc c).pid ∧
        ∀ q, (t.proc q).pid = (s.proc c).pid → (t.proc q).pass = s.createPass junk := by
    intro p k pass f t hp hpass href hsame hre
    have hne := ne_freeSlot hc hp
    refine ⟨href, (hsame c).1.trans (threaded_pid hne), fun q hq => ?_⟩
    rw [(hsame q).2, ← hpass]
    exact threaded_pass hne hre.2.2.2 ((hsame q).1.symm.trans hq)
  refine wp_threadCreate hc (fun hno hre => ?_) (fun p _ _ hstack hre => absurd hstack hre.2.2.1)
    (fun p k pass f hpass href _ hp _ _ => hlast p k pass f _ hp hpass href fun q => ?_)
    (fun p k pass f hpass href _ hp _ _ => hlast p k pass f _ hp hpass href fun q => ?_) fun _ _ href => ⟨rfl, href⟩
  · rcases hno with hthread | hfull
    · exact absurd (hthread.symm.trans hre.1) (by decide)
    · exact absurd hfull hre.2.1
  · unfold threadUp
    rw [upd_upd, upd_proc]
    split <;> exact ⟨rfl, rfl⟩
  · unfold threadDown
    rw [upd_proc]
    split <;> exact ⟨rfl, rfl⟩

theorem createsAtMinimum_iff (hc : s.Used c) : s.CreatesAtMinimum c stack ↔ s.CreatesOk c stack := by
  constructor
  · intro h hre
    by_cases href : s.files.Unreferenced c
    · exact .inl href
    · refine .inr (isLeast_createPass_iff.mp fun junk => ?_)
      have hboth := (h junk).and (wp_threadCreate_pass hc junk)
      have hexact := @wp_threadCreate_pass s c stack hc junk
      unfold wp at hboth hexact
      cases hrun : threadCreate c stack junk s with
      | ok r =>
        rw [hrun] at hboth
        obtain ⟨hleast, hrest⟩ := hboth
        obtain ⟨-, hpid, hpass⟩ := hrest hre
        rw [← hpass c hpid]
        exact hleast hre c hpid
      | error e =>
        rw [hrun] at hexact
        exact absurd hexact.2 href
  · intro hok junk
    refine (wp_threadCreate_pass hc junk).mono (fun _ t ht hre q hq => ?_) fun e he => he.1
    obtain ⟨href, -, hpass⟩ := ht hre
    rw [hpass q hq]
    exact isLeast_createPass_iff.mpr ((hok hre).resolve_left href) junk

end Kernel

/-! ## Both calls -/

theorem newcomers_at_minimum_iff (s : Kernel) (c : Slot) (hc : (s.proc c).state = .running) :
    (∀ share, s.SharesAtMinimum c share ↔ s.SharesOk c share) ∧
      ∀ stack, s.CreatesAtMinimum c stack ↔ s.CreatesOk c stack :=
  ⟨fun _ => Kernel.sharesAtMinimum_iff, fun _ => Kernel.createsAtMinimum_iff (Kernel.used_of_running hc)⟩

/-- A process with CPU share runs, and another one is RUNNABLE. -/
def sharedTable : Kernel :=
  { Kernel.zero with
    proc := fun q =>
      if q = 0 then { Proc.zero with state := .running, pid := 1, isMainThread := true, cntThread := 1 }
      else if q = 1 then { Proc.zero with state := .runnable, pass := 1 }
      else .zero
    leftShare := 80
    mlfqPassVal := 2 }

theorem sharedTable_contends {p : Slot} : sharedTable.Contends p ↔ p = 1 := by
  unfold Kernel.Contends sharedTable
  dsimp only
  by_cases h₀ : p = 0
  · simp [h₀]
  · by_cases h₁ : p = 1
    · simp [h₁, Proc.zero]
    · simp [h₀, h₁, Proc.zero]

theorem newcomers_at_minimum_shared : (sharedTable.proc 0).state = .running ∧ sharedTable.SharesAtMinimum 0 20 ∧
    sharedTable.CreatesAtMinimum 0 (some 5) := by
  have hpass : (sharedTable.proc 1).pass = 1 := rfl
  have hpos : sharedTable.PassesNonneg := by
    intro p hp
    rw [sharedTable_contends.mp hp, hpass]
    exact zero_le_one
  have hleast : sharedTable.LeastPass 1 := by
    refine ⟨sharedTable_contends.mpr rfl, fun q hq => ?_⟩
    rw [sharedTable_contends.mp hq]
  have hfirst : sharedTable.FirstWhole 1 := by
    intro q hq hcont
    exact absurd (sharedTable_contends.mp hcont) hq.ne
  have hmlfq : ¬ sharedTable.mlfqPassVal < (sharedTable.proc 1).pass := by
    rw [hpass]
    change ¬ (2 : ℚ) < 1
    norm_num
  have hbound : (sharedTable.proc 1).pass < passBound := by
    rw [hpass]
    norm_num
  obtain ⟨hshare, hcreate⟩ := newcomers_at_minimum_iff sharedTable 0 rfl
  refine ⟨rfl, (hshare 20).mpr (.inr ⟨0, rfl, .inr ⟨fun hask => ?_, .inl ⟨hpos, fun p hp => ?_⟩⟩⟩),
    (hcreate (some 5)).mpr fun _ => .inr (.inl ⟨hpos, 1, hleast, hfirst, hmlfq, hbound⟩)⟩
  · exact absurd hask.1 Bool.false_ne_true
  · rw [sharedTable_contends.mp hp.1]
    exact ⟨fun hless => absurd hless hmlfq, fun _ => .inr ⟨hbound, 1, hleast, hfirst⟩⟩

/-- Init alone has CPU share and creates a thread: both get what a null pointer reads. -/
theorem newcomers_follow_null : ∃ s, Run (fun _ _ _ => True) (boot 0 1 0) s ∧ (s.proc 0).state = .running ∧
    s.findMinPass = none ∧ s.Restrides 0 (some 3) ∧ ¬ s.CreatesAtMinimum 0 (some 3) := by
  have hplay : (play (fun _ _ _ => True) [(0, .setCpuShare 20)] (boot 0 1 0)).any (fun s =>
      (s.proc 0).state = .running ∧ s.findMinPass = none ∧ (s.proc 0).isThread = false ∧ s.freeSlot = some 1 ∧
      (s.proc 0).isMLFQ = false ∧
      ∀ junk ∈ [(0 : ℚ), 1], (threadCreate 0 (some 3) junk).returns s (fun _ t =>
        (t.proc 0).pid = (s.proc 0).pid ∧ (t.proc 0).pass = junk) = true) = true := by
    decide +kernel
  obtain ⟨s, hrun, hs⟩ := Run.exists_of_play hplay
  obtain ⟨hstate, hmin, hthread, hfree, hmode, hjunk⟩ := of_decide_eq_true hs
  have hre : s.Restrides 0 (some 3) := ⟨hthread, by simp [hfree], by simp, hmode⟩
  refine ⟨s, hrun, hstate, hmin, hre, fun h => ?_⟩
  have hleast : ∀ junk ∈ [(0 : ℚ), 1], IsLeast s.passes junk := by
    intro junk hmem
    obtain ⟨r, t, hret, htest⟩ := exists_of_returns (hjunk junk hmem)
    obtain ⟨hpid, hpass⟩ := of_decide_eq_true htest
    rw [← hpass]
    exact (h junk).of_run hret hre 0 hpid
  exact zero_ne_one ((hleast 0 (by simp)).unique (hleast 1 (by simp)))

end Xv6
