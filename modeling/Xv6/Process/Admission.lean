-- SUMMARY: Admission of CPU share: bounds on what is left, divisors and strides.
import Xv6.Process.Shares

/-! # Admission

`set_cpu_share` checks `leftShare - share` and then subtracts `totalshare`, and a share
is divided by the number of threads without a check that anything remains. As long as
requests are positive, the first of their process and not smaller than the number of
its threads, a fifth of the CPU stays with MLFQ and nothing is divided by zero.
-/

namespace Xv6

open Prog

/-! ## One process, one main thread -/

/-- Of the slots with one pid that can be scheduled, all but one are threads. -/
structure Kernel.PidInv (s : Kernel) : Prop where
  nextpid_pos : 0 < s.nextpid
  pid_lt : ∀ q, (s.proc q).pid < s.nextpid
  used_pos : ∀ q, s.Used q → 0 < (s.proc q).pid
  main_thread : ∀ q, (s.proc q).isMainThread = true → (s.proc q).isThread = false
  alone : ∀ p q, s.Schedulable p → s.Schedulable q → (s.proc p).isThread = false → (s.proc q).isThread = false →
    (s.proc p).pid = (s.proc q).pid → p = q

namespace Kernel.PidInv

variable {s t : Kernel} {c p : Slot}

/-- No pid changes. -/
theorem same (h : s.PidInv) (hnext : t.nextpid = s.nextpid) (hpid : ∀ q, (t.proc q).pid = (s.proc q).pid)
    (hused : ∀ q, t.Used q → 0 < (s.proc q).pid)
    (hmain : ∀ q, (t.proc q).isMainThread = true → (t.proc q).isThread = false)
    (halone : ∀ p q, t.Schedulable p → t.Schedulable q → (t.proc p).isThread = false → (t.proc q).isThread = false →
      (s.proc p).pid = (s.proc q).pid → p = q) : t.PidInv where
  nextpid_pos := hnext ▸ h.nextpid_pos
  pid_lt q := by
    rw [hpid, hnext]
    exact h.pid_lt q
  used_pos q hq := by
    rw [hpid]
    exact hused q hq
  main_thread := hmain
  alone p q hp hq hpt hqt hpq := by
    rw [hpid, hpid] at hpq
    exact halone p q hp hq hpt hqt hpq

theorem like (h : s.PidInv) (hl : s.Like t) : t.PidInv := by
  refine h.same hl.nextpid (fun q => (hl.proc q).pid) (fun q hq => h.used_pos q ((hl.used q).mp hq)) (fun q hq => ?_)
    fun p q hp hq hpt hqt => ?_
  · rw [(hl.proc q).isThread]
    exact h.main_thread q ((hl.proc q).isMainThread ▸ hq)
  · rw [(hl.proc p).isThread] at hpt
    rw [(hl.proc q).isThread] at hqt
    exact h.alone p q ((hl.schedulable p).mp hp) ((hl.schedulable q).mp hq) hpt hqt

theorem retire (h : s.PidInv) {Z : Slot → Prop} (hr : s.Retires t Z) (hZ : ∀ q, Z q → 0 < (s.proc q).pid) :
    t.PidInv := by
  refine h.same hr.rest.nextpid (fun q => (hr.same q).pid) (fun q hq => ?_) (fun q hq => ?_)
    fun p q hp hq hpt hqt => ?_
  · exact ((hr.used q).mp hq).elim (h.used_pos q) (hZ q)
  · rw [(hr.same q).isThread]
    exact h.main_thread q ((hr.same q).isMainThread ▸ hq)
  · rw [(hr.same p).isThread] at hpt
    rw [(hr.same q).isThread] at hqt
    exact h.alone p q ((hr.schedulable p).mp hp).1 ((hr.schedulable q).mp hq).1 hpt hqt

/-- Who gets a new image stays a process, or a thread. -/
theorem image (h : s.PidInv) {dir : Page} (hr : s.Reimages t c dir)
    (hthread : (t.proc c).isThread = (s.proc c).isThread)
    (hmain : (t.proc c).isMainThread = (s.proc c).isMainThread) : t.PidInv := by
  have hsame : ∀ q, (t.proc q).isThread = (s.proc q).isThread ∧
      ((t.proc q).isMainThread = true → (s.proc q).isMainThread = true) := by
    intro q
    by_cases hq : q = c
    · rw [hq, hthread, hmain]
      exact ⟨rfl, id⟩
    · exact ⟨(hr.ne q hq).2.2.1, (hr.ne q hq).2.2.2.2.2⟩
  refine h.same hr.nextpid hr.pid_eq (fun q hq => h.used_pos q ((hr.used q).mp hq)) (fun q hq => ?_)
    fun p q hp hq hpt hqt => ?_
  · rw [(hsame q).1]
    exact h.main_thread q ((hsame q).2 hq)
  · rw [(hsame p).1] at hpt
    rw [(hsame q).1] at hqt
    exact h.alone p q ((hr.schedulable p).mp hp) ((hr.schedulable q).mp hq) hpt hqt

/-- A thread that `exec` has made the main thread is the only one left. -/
theorem promote (h : s.PidInv) {u : Kernel} {dir : Page} (hc : s.Used c) (hr : s.Reimages t c dir)
    (hthread : (t.proc c).isThread = false) (hz : t.Zombified u c) : u.PidInv := by
  have hret := hz.retires
  have hpid : ∀ q, (u.proc q).pid = (s.proc q).pid := fun q => (hret.same q).pid.trans (hr.pid_eq q)
  have hne : ∀ q, q ≠ c → (u.proc q).isThread = (s.proc q).isThread := fun q hq =>
    (hret.same q).isThread.trans (hr.ne q hq).2.2.1
  have hlast : ∀ q, u.Schedulable q → (s.proc q).pid = (s.proc c).pid → q = c := by
    intro q hq hpq
    by_contra hqc
    refine ((hret.schedulable q).mp hq).2 ⟨?_, hqc⟩
    rw [hr.pid_eq, hr.pid_eq, hpq]
  have hsched : ∀ q, u.Schedulable q → s.Schedulable q := fun q hq =>
    (hr.schedulable q).mp ((hret.schedulable q).mp hq).1
  refine h.same (hret.rest.nextpid.trans hr.nextpid) hpid (fun q hq => ?_) (fun q hq => ?_)
    fun p q hp hq hpt hqt hpq => ?_
  · rcases (hret.used q).mp hq with hq | hq
    · exact h.used_pos q ((hr.used q).mp hq)
    · have hpq := hq.1
      rw [hr.pid_eq, hr.pid_eq] at hpq
      rw [hpq]
      exact h.used_pos c hc
  · by_cases hqc : q = c
    · rw [hqc, (hret.same c).isThread, hthread]
    · rw [hne q hqc]
      exact h.main_thread q ((hr.ne q hqc).2.2.2.2.2 ((hret.same q).isMainThread ▸ hq))
  · by_cases hpc : p = c
    · rw [hpc] at hpq ⊢
      exact (hlast q hq hpq.symm).symm
    · by_cases hqc : q = c
      · rw [hqc] at hpq ⊢
        exact hlast p hp hpq
      · rw [hne p hpc] at hpt
        rw [hne q hqc] at hqt
        exact h.alone p q (hsched p hp) (hsched q hq) hpt hqt hpq

/-- One slot is taken or given up. -/
theorem slot (h : s.PidInv) (hother : ∀ q, q ≠ p → (s.proc q).Like (t.proc q)) (hnext : s.nextpid ≤ t.nextpid)
    (hlt : (t.proc p).pid < t.nextpid) (hpos : t.Used p → 0 < (t.proc p).pid)
    (hmain : (t.proc p).isMainThread = true → (t.proc p).isThread = false)
    (hnew : t.Schedulable p → (t.proc p).isThread = false → ∀ q, (s.proc q).pid ≠ (t.proc p).pid) : t.PidInv := by
  refine ⟨lt_of_lt_of_le h.nextpid_pos hnext, fun q => ?_, fun q hq => ?_, fun q hq => ?_,
    fun a b ha hb hat hbt hab => ?_⟩
  · by_cases hqp : q = p
    · rwa [hqp]
    · rw [(hother q hqp).pid]
      exact lt_of_lt_of_le (h.pid_lt q) hnext
  · by_cases hqp : q = p
    · rw [hqp] at hq ⊢
      exact hpos hq
    · rw [(hother q hqp).pid]
      exact h.used_pos q ((hother q hqp).state.used.mp hq)
  · by_cases hqp : q = p
    · rw [hqp] at hq ⊢
      exact hmain hq
    · rw [(hother q hqp).isThread]
      exact h.main_thread q ((hother q hqp).isMainThread ▸ hq)
  · by_cases hap : a = p
    · rw [hap] at ha hat hab ⊢
      by_contra hne
      refine hnew ha hat b ?_
      rw [hab, (hother b (Ne.symm hne)).pid]
    · by_cases hbp : b = p
      · rw [hbp] at hb hbt hab ⊢
        refine absurd ?_ (hnew hb hbt a)
        rw [← hab, (hother a hap).pid]
      · rw [(hother a hap).pid, (hother b hbp).pid] at hab
        rw [(hother a hap).isThread] at hat
        rw [(hother b hbp).isThread] at hbt
        exact h.alone a b ((hother a hap).state.schedulable.mp ha) ((hother b hbp).state.schedulable.mp hb) hat hbt hab

/-- A slot that is free in the end. -/
theorem free (h : s.PidInv) (hd : s.Drops t p) (hnext : s.nextpid ≤ t.nextpid) (hlt : (t.proc p).pid < t.nextpid)
    (hmain : (t.proc p).isMainThread = true → (t.proc p).isThread = false) : t.PidInv :=
  h.slot hd.other hnext hlt (fun hu => absurd hu hd.unused) hmain
    fun hs => absurd (t.used_of_schedulable p hs) hd.unused

end Kernel.PidInv

/-! ## Numbers of one slot -/

/-- A process in stride mode has share, a stride and at least one thread. -/
structure Proc.Sane (x : Proc) : Prop where
  total_nonneg : 0 ≤ x.totalshare
  total_pos : x.state.Schedulable → x.isThread = false → x.isMLFQ = false → 0 < x.totalshare
  cnt_pos : x.state.Schedulable → 0 < x.cntThread
  stride_pos : x.isMLFQ = false → x.pid ≠ 0 → 0 < x.stride

namespace Proc.Sane

variable {x y : Proc}

theorem even (h : x.Sane) (he : x.Even y) (hpid : y.pid = x.pid) (hs : y.state.Schedulable → x.state.Schedulable)
    (hthread : y.state.Schedulable → y.isThread = false → x.isMLFQ = false → x.isThread = false) : y.Sane where
  total_nonneg := he.totalshare ▸ h.total_nonneg
  total_pos hy ht hm := by
    rw [he.isMLFQ] at hm
    rw [he.totalshare]
    exact h.total_pos (hs hy) (hthread hy ht hm) hm
  cnt_pos hy := he.cntThread ▸ h.cnt_pos (hs hy)
  stride_pos hm hp := by
    rw [he.stride]
    exact h.stride_pos (he.isMLFQ ▸ hm) (hpid ▸ hp)

theorem toStride (h : x.Sane) {sh st pa : ℚ} (hst : 0 < st)
    (hpos : x.state.Schedulable → x.isThread = false → 0 < x.totalshare) : (x.toStride sh st pa).Sane :=
  ⟨h.total_nonneg, fun hs ht _ => hpos hs ht, h.cnt_pos, fun _ _ => hst⟩

theorem record (h : x.Sane) {n : Int} (hn : 0 < n) : { x with totalshare := n }.Sane :=
  ⟨hn.le, fun _ _ _ => hn, h.cnt_pos, h.stride_pos⟩

theorem count (h : x.Sane) {n : Int} (hn : x.state.Schedulable → 0 < n) : { x with cntThread := n }.Sane :=
  ⟨h.total_nonneg, h.total_pos, hn, h.stride_pos⟩

/-- Threads record no share of their own. -/
theorem thread (h : x.Sane) (he : x.Even y) (hpid : y.pid = x.pid) (hthread : y.isThread = true)
    (hcnt : 0 < x.cntThread) : y.Sane where
  total_nonneg := he.totalshare ▸ h.total_nonneg
  total_pos _ ht _ := absurd (hthread.symm.trans ht) (by decide)
  cnt_pos _ := he.cntThread ▸ hcnt
  stride_pos hm hp := by
    rw [he.stride]
    exact h.stride_pos (he.isMLFQ ▸ hm) (hpid ▸ hp)

theorem fresh (h : 0 ≤ x.totalshare) (hm : x.isMLFQ = true) (hcnt : x.state.Schedulable → 0 < x.cntThread) :
    x.Sane :=
  ⟨h, fun _ _ hm' => absurd (hm.symm.trans hm') (by decide), hcnt, fun hm' _ => absurd (hm.symm.trans hm') (by decide)⟩

theorem given_back (h : 0 ≤ x.totalshare) (hs : x.state = .unused) (hpid : x.pid = 0) : x.Sane := by
  have hnot : ¬ x.state.Schedulable := by
    rw [hs]
    decide
  exact ⟨h, fun hs => absurd hs hnot, fun hs => absurd hs hnot, fun _ hp => absurd hpid hp⟩

end Proc.Sane

/-! ## Slots go into stride mode -/

/-- From `s` to `t` the slots in `G` go into stride mode, with a positive stride and
    without a division by zero. -/
structure Kernel.Paced (s t : Kernel) (G : Slot → Prop) : Prop where
  group : ∀ q, G q → ∃ sh st pa, 0 < st ∧ t.proc q = (s.proc q).toStride sh st pa
  other : ∀ q, ¬ G q → t.proc q = s.proc q
  leftShare : t.leftShare = s.leftShare
  mlfqStrideVal : t.mlfqStrideVal = s.mlfqStrideVal
  divisors : ∀ d ∈ t.divisors, d ∈ s.divisors ∨ d ≠ 0

section Paced

variable {s t : Kernel} {c m : Slot} {share : Int}

theorem STRIDENUM_pos : (0 : ℚ) < STRIDENUM := by
  unfold STRIDENUM
  norm_num

theorem Kernel.paced_restride {pid : Int} {sh d pass : ℚ} (hsh : 0 < sh) (hd : d ≠ 0) :
    s.Paced ((s.noteDivisor d).restride pid sh pass) fun q => (s.proc q).pid = pid := by
  refine ⟨fun q hq => ⟨sh, _, pass, div_pos STRIDENUM_pos hsh, ?_⟩, fun q hq => ?_, rfl, rfl, fun e he => ?_⟩
  · rw [restride_proc, noteDivisor_proc, if_pos hq]
  · rw [restride_proc, noteDivisor_proc, if_neg hq]
  · rw [restride_divisors, noteDivisor_divisors, List.mem_cons, List.mem_cons] at he
    rcases he with rfl | rfl | he
    · exact .inr hsh.ne'
    · exact .inr hd
    · exact .inl he

theorem Kernel.paced_single {sh st d pass : ℚ} (hst : 0 < st) (hd : d ≠ 0) :
    s.Paced ((s.noteDivisor d).upd c fun x => x.toStride sh st pass) (· = c) := by
  refine ⟨fun q hq => ⟨sh, st, pass, hst, ?_⟩, fun q hq => ?_, rfl, rfl, fun e he => ?_⟩
  · rw [hq, upd_proc_same, noteDivisor_proc]
  · rw [upd_proc_ne _ _ hq, noteDivisor_proc]
  · rw [upd_divisors, noteDivisor_divisors, List.mem_cons] at he
    rcases he with rfl | he
    · exact .inr hd
    · exact .inl he

theorem Kernel.Paced.sane {G : Slot → Prop} (h : s.Paced t G) (hs : ∀ q, (s.proc q).Sane)
    (hG : ∀ q, G q → s.Schedulable q → (s.proc q).isThread = false → 0 < (s.proc q).totalshare) (q : Slot) :
    (t.proc q).Sane := by
  by_cases hq : G q
  · obtain ⟨sh, st, pa, hst, ht⟩ := h.group q hq
    rw [ht]
    exact (hs q).toStride hst (hG q hq)
  · rw [h.other q hq]
    exact hs q

/-- Something is left for each of `n` threads. -/
theorem tdiv_pos {n : Int} (hn : 0 < n) (hle : n ≤ share) : 0 < share.tdiv n := by
  rw [Int.tdiv_eq_ediv_of_nonneg (hn.le.trans hle)]
  exact (Int.le_ediv_iff_mul_le hn).mpr (by rwa [zero_add, one_mul])

end Paced

/-! ## Runs -/

/-- A fifth of the CPU stays with MLFQ, no division was by zero, and the MLFQ scheduler
    has a stride once anything was divided. -/
structure Kernel.AdmitInv (s : Kernel) : Prop where
  pids : s.PidInv
  shares : s.ShareInv
  sane : ∀ q, (s.proc q).Sane
  room : 20 ≤ s.leftShare
  divisors : ∀ d ∈ s.divisors, d ≠ 0
  pace : s.divisors ≠ [] ∨ s.leftShare < 100 → 0 < s.mlfqStrideVal

/-- What `c` requests is positive, the first request of its process, and not smaller
    than the number of its threads. -/
def Kernel.Admissible (s : Kernel) (c : Slot) (share : Int) : Prop :=
  0 < share ∧ (((s.proc c).isMainThread = true ∧ (s.proc c).totalshare = 0 ∧ (s.proc c).cntThread ≤ share) ∨
    ((s.proc c).isMainThread = false ∧ (s.proc c).isThread = true ∧ ∃ m, (s.proc c).parent = some m ∧
      s.Schedulable m ∧ (s.proc m).isMainThread = true ∧ (s.proc m).pid = (s.proc c).pid ∧
      (s.proc m).totalshare = 0 ∧ (s.proc m).cntThread ≤ share))

instance (s : Kernel) (c : Slot) (share : Int) : Decidable (s.Admissible c share) :=
  inferInstanceAs (Decidable (_ ∧ (_ ∨ _)))

/-- Granted requests are admissible; `thread_join` gives back no thread in stride mode;
    a thread that replaces its main thread is not in stride mode; counters do not run
    over. -/
def AdmitOk (s : Kernel) (c : Slot) : SysCall → Prop
  | .setCpuShare share => 20 ≤ s.leftShare - share → share ≠ 0 → s.Admissible c share
  | .threadJoin thread => s.JoinsIdle c thread
  | .exec (.ok _ _) => (s.proc c).isThread = true → (s.proc c).isMLFQ = true ∧
    ∀ m, (s.proc c).parent = some m → (s.proc m).totalshare = 0
  | .fork _ _ => s.nextpid < 2 ^ 31 - 1
  | .threadCreate _ _ => s.nextpid < 2 ^ 31 - 1 ∧ (s.proc c).cntThread < 2 ^ 31 - 1
  | _ => True

instance (s : Kernel) (c : Slot) : (call : SysCall) → Decidable (AdmitOk s c call)
  | .setCpuShare share => inferInstanceAs (Decidable (20 ≤ s.leftShare - share → share ≠ 0 → s.Admissible c share))
  | .threadJoin thread => inferInstanceAs (Decidable (s.JoinsIdle c thread))
  | .exec (.ok _ _) => inferInstanceAs (Decidable ((s.proc c).isThread = true → (s.proc c).isMLFQ = true ∧
      ∀ m, (s.proc c).parent = some m → (s.proc m).totalshare = 0))
  | .fork _ _ => inferInstanceAs (Decidable (s.nextpid < 2 ^ 31 - 1))
  | .threadCreate _ _ => inferInstanceAs (Decidable (s.nextpid < 2 ^ 31 - 1 ∧ (s.proc c).cntThread < 2 ^ 31 - 1))
  | .exec .bad | .exec (.short _ _ _) | .threadExit _ | .exit | .wait | .kill _ | .sbrk _ _ | .file _ =>
    .isTrue trivial

section Requests

variable {s t : Kernel} {c p m : Slot} {share : Int}

theorem Kernel.Admissible.first (h : s.Admissible c share) : s.FirstRequest c := by
  rcases h with ⟨-, ⟨hmain, hzero, -⟩ | ⟨hmain, hthread, m, hm, hs, hmain', hpid, hzero, -⟩⟩
  · exact .inl ⟨hmain, hzero⟩
  · exact .inr ⟨hmain, hthread, m, hm, s.used_of_schedulable m hs, hmain', hpid, hzero⟩

theorem AdmitOk.conserveOk {call : SysCall} (h : AdmitOk s c call) : ConserveOk s c call := by
  cases call with
  | setCpuShare share => exact fun hleft hne => (h hleft hne).first
  | threadJoin thread => exact h
  | exec img =>
    cases img with
    | ok dir usz => exact fun hthread => (h hthread).2
    | bad => trivial
    | short dir usz n => trivial
  | _ => trivial

/-- The main thread that records the request. -/
theorem Kernel.Admissible.payer (h : s.Admissible c share) (hc : (s.proc c).state = .running)
    (hm : s.payer c = some m) : s.Schedulable m ∧ (s.proc m).isMainThread = true ∧
      (s.proc m).pid = (s.proc c).pid ∧ (s.proc m).totalshare = 0 ∧ (s.proc m).cntThread ≤ share := by
  unfold Kernel.payer at hm
  rcases h with ⟨-, ⟨hmain, hzero, hcnt⟩ | ⟨hmain, -, m', hm', hs, hmain', hpid, hzero, hcnt⟩⟩
  · rw [if_pos hmain] at hm
    obtain rfl := Option.some.inj hm
    exact ⟨.inr (.inr hc), hmain, rfl, hzero, hcnt⟩
  · rw [if_neg (by simp [hmain]), hm'] at hm
    obtain rfl := Option.some.inj hm
    exact ⟨hs, hmain', hpid, hzero, hcnt⟩

theorem Kernel.Admissible.exists_payer (h : s.Admissible c share) : s.payer c ≠ none := by
  unfold Kernel.payer
  rcases h with ⟨-, ⟨hmain, -⟩ | ⟨hmain, -, m, hm, -⟩⟩
  · simp [hmain]
  · simp [hmain, hm]

theorem Kernel.AdmitInv.left_le (h : s.AdmitInv) : s.leftShare ≤ 100 :=
  h.shares.balanced.le_total fun q => Int.cast_nonneg (h.sane q).total_nonneg

theorem Kernel.AdmitInv.left_lt (h : s.AdmitInv) {q : Slot} (hq : 0 < (s.proc q).totalshare) : s.leftShare < 100 :=
  h.shares.balanced.lt_total (fun q => Int.cast_nonneg (h.sane q).total_nonneg) (Int.cast_pos.mpr hq)

/-- All threads of the caller get a share, or the caller alone, if it is the only one. -/
theorem Kernel.Strided.paced {u : Kernel} (h : s.AdmitInv) (hc : (s.proc c).state = .running)
    (hok : s.Admissible c share) (hleft : 20 ≤ s.leftShare - share) (hm : s.payer c = some m)
    (hu : ∀ q, ∃ n, u.proc q = { s.proc q with totalshare := n }) (hum : (u.proc m).totalshare = share)
    (hs : u.Strided c share t) : ∃ G, u.Paced t G ∧ ∀ q, G q → (s.proc q).pid = (s.proc c).pid := by
  obtain ⟨hsched, hmain, hpid, -, hcnt⟩ := hok.payer hc hm
  have hpos : 0 < (s.proc m).cntThread := (h.sane m).cnt_pos hsched
  have hquot : (0 : ℚ) < (share.tdiv (s.proc m).cntThread : Int) := Int.cast_pos.mpr (tdiv_pos hpos hcnt)
  have hupid : ∀ q, (u.proc q).pid = (s.proc q).pid := fun q => by
    obtain ⟨n, hn⟩ := hu q
    rw [hn]
  have hcm : (u.proc m).cntThread = (s.proc m).cntThread := by
    obtain ⟨n, hn⟩ := hu m
    rw [hn]
  obtain ⟨n, hcaller⟩ := hu c
  unfold payer at hm
  cases hs with
  | main pass hmain' hcnt' =>
    have hmain'' : (s.proc c).isMainThread = true := by rwa [hcaller] at hmain'
    rw [if_pos hmain''] at hm
    obtain rfl := Option.some.inj hm
    refine ⟨_, paced_restride ?_ (Int.cast_ne_zero.mpr (by omega)), fun q hq => ?_⟩
    · rw [hum, hcm]
      exact hquot
    · rwa [hupid, hupid] at hq
  | thread pass m' hnot hthread hm' =>
    have hthread' : (s.proc c).isThread = true := by rwa [hcaller] at hthread
    have hnot' : ¬ (s.proc c).isMainThread = true := fun hmain' =>
      absurd (h.pids.main_thread c hmain') (by simp [hthread'])
    rw [hcaller] at hm'
    rw [if_neg hnot', show (s.proc c).parent = some m' from hm'] at hm
    obtain rfl := Option.some.inj hm
    refine ⟨_, paced_restride ?_ (Int.cast_ne_zero.mpr (by omega)), fun q hq => ?_⟩
    · rw [hcm]
      exact hquot
    · rwa [hupid, hupid] at hq
  | single pass hnot hthread =>
    have hle : share ≤ 80 := by
      have hle := h.left_le
      have : (share : ℚ) ≤ 80 := by linarith
      exact_mod_cast this
    have hdiv : 0 < STRIDENUM.tdiv share := tdiv_pos hok.1 (hle.trans (by decide))
    refine ⟨_, paced_single (Int.cast_pos.mpr hdiv) (Int.cast_ne_zero.mpr hok.1.ne'), fun q hq => ?_⟩
    rw [hq]

theorem Kernel.AdmitInv.grant (h : s.AdmitInv) (hc : (s.proc c).state = .running)
    (hrange : -2 ^ 31 ≤ share ∧ share < 2 ^ 31) (hok : s.Admissible c share) (hleft : 20 ≤ s.leftShare - share)
    (hm : s.payer c = some m) (hs : (s.charged m share).resetStride.Strided c share t) : t.AdmitInv := by
  obtain ⟨hsched, hmain, hpid, hzero, -⟩ := hok.payer hc hm
  obtain ⟨-, hholds⟩ := hok.first.holds hc hm hs
  have hthread := h.pids.main_thread m hmain
  have hwrap : wrap ((s.proc m).totalshare + share) = share := by
    rw [hzero, zero_add, wrap_of_range hrange.1 hrange.2]
  have hl := (like_charged.trans (.of_proc rfl) : s.Like (s.charged m share).resetStride).trans hs.like
  have hnew : ((s.charged m share).resetStride.proc m) = { s.proc m with totalshare := share } := by
    rw [resetStride_proc, charged_proc_same, hwrap]
  have hproc : ∀ q, ∃ n, (s.charged m share).resetStride.proc q = { s.proc q with totalshare := n } := by
    intro q
    by_cases hq : q = m
    · exact ⟨share, by rw [hq, hnew]⟩
    · exact ⟨_, by rw [resetStride_proc, charged_proc_ne hq]⟩
  have hpot : (s.charged m share).leftShare = s.leftShare - share := by
    change s.leftShare + -(wrap ((s.proc m).totalshare + share) : ℚ) = _
    rw [hwrap]
    ring
  have hpot_pos : 0 < (s.charged m share).leftShare := by linarith
  obtain ⟨G, hpaced, hG⟩ := hs.paced h hc hok hleft hm hproc (by rw [hnew])
  have hsane : ∀ q, ((s.charged m share).resetStride.proc q).Sane := by
    intro q
    by_cases hq : q = m
    · rw [hq, hnew]
      exact (h.sane m).record hok.1
    · rw [resetStride_proc, charged_proc_ne hq]
      exact h.sane q
  refine ⟨h.pids.like hl, h.shares.grant hrange hzero hs hholds, hpaced.sane hsane fun q hq hqs hqt => ?_, ?_,
    fun d hd => ?_, fun _ => ?_⟩
  · -- The only process among the threads is the one that has recorded the request.
    obtain ⟨n, hn⟩ := hproc q
    have hqm : q = m := by
      unfold Schedulable at hqs
      rw [hn] at hqs hqt
      exact h.pids.alone q m hqs hsched hqt hthread ((hG q hq).trans hpid.symm)
    rw [hqm, hnew]
    exact hok.1
  · rw [hpaced.leftShare, resetStride_leftShare, hpot]
    exact hleft
  · rcases hpaced.divisors d hd with hd | hd
    · rw [resetStride_divisors, List.mem_cons] at hd
      rcases hd with rfl | hd
      · exact hpot_pos.ne'
      · exact h.divisors d hd
    · exact hd
  · rw [hpaced.mlfqStrideVal, resetStride_mlfqStrideVal]
    exact div_pos STRIDENUM_pos hpot_pos

/-- A request is refused and nothing changes, or it is granted. -/
theorem Kernel.AdmitInv.setCpuShare (h : s.AdmitInv) (hc : (s.proc c).state = .running)
    (hrange : -2 ^ 31 ≤ share ∧ share < 2 ^ 31) (hok : AdmitOk s c (.setCpuShare share)) :
    wp (setCpuShare c share) (fun r t => (r = -1 ∧ t = s) ∨ (r = share ∧ t.AdmitInv)) (fun _ => False) s := by
  refine wp_setCpuShare (fun _ => .inl ⟨rfl, rfl⟩) fun hleft hne => ?_
  have hadm := hok hleft hne
  refine ⟨hadm.exists_payer, fun m hm => ?_⟩
  obtain ⟨-, hmain, -, hzero, -⟩ := hadm.payer hc hm
  have hle : share ≤ 80 := by
    have hle := h.left_le
    have : (share : ℚ) ≤ 80 := by linarith
    exact_mod_cast this
  have hwrap : wrap ((s.proc m).totalshare + share) = share := by
    rw [hzero, zero_add, wrap_of_range hrange.1 hrange.2]
  rw [hwrap]
  refine ⟨fun hover => by omega, fun _ => wp_assignStrides (fun t ht => ?_) fun hthread hp => ?_⟩
  · exact .inr ⟨rfl, h.grant hc hrange hadm hleft hm ht⟩
  · -- A thread has a parent, or it would not have a payer.
    have hcaller : ((s.charged m share).resetStride.proc c).isThread = (s.proc c).isThread ∧
        ((s.charged m share).resetStride.proc c).parent = (s.proc c).parent := by
      rw [resetStride_proc]
      by_cases hcm : c = m
      · rw [hcm, charged_proc_same]
        exact ⟨rfl, rfl⟩
      · rw [charged_proc_ne hcm]
        exact ⟨rfl, rfl⟩
    rw [hcaller.1] at hthread
    rw [hcaller.2] at hp
    unfold payer at hm
    by_cases hcmain : (s.proc c).isMainThread = true
    · exact absurd (h.pids.main_thread c hcmain) (by simp [hthread])
    · rw [if_neg hcmain, hp] at hm
      cases hm

end Requests

namespace Kernel.AdmitInv

variable {s t : Kernel} {c p : Slot}

/-- No share changes. -/
theorem even (h : s.AdmitInv) (he : s.Even t) (hpids : t.PidInv) (hshares : t.ShareInv)
    (hpid : ∀ q, (t.proc q).pid = (s.proc q).pid) (hs : ∀ q, t.Schedulable q → s.Schedulable q)
    (hthread : ∀ q, t.Schedulable q → (t.proc q).isThread = false → (s.proc q).isMLFQ = false →
      (s.proc q).isThread = false) : t.AdmitInv where
  pids := hpids
  shares := hshares
  sane q := (h.sane q).even (he.proc q) (hpid q) (hs q) (hthread q)
  room := he.leftShare ▸ h.room
  divisors := he.divisors ▸ h.divisors
  pace := by
    rw [he.divisors, he.leftShare, he.mlfqStrideVal]
    exact h.pace

theorem like (h : s.AdmitInv) (hl : s.Like t) (he : s.Even t) : t.AdmitInv :=
  h.even he (h.pids.like hl) (h.shares.like hl he) (fun q => (hl.proc q).pid) (fun q => (hl.schedulable q).mp)
    fun q _ hq _ => (hl.proc q).isThread.symm.trans hq

theorem retire (h : s.AdmitInv) {Z : Slot → Prop} (hr : s.Retires t Z) (he : s.Even t)
    (hZ : ∀ q, Z q → 0 < (s.proc q).pid) : t.AdmitInv :=
  h.even he (h.pids.retire hr hZ) (h.shares.retire hr he) (fun q => (hr.same q).pid)
    (fun q hq => ((hr.schedulable q).mp hq).1) fun q _ hq _ => (hr.same q).isThread.symm.trans hq

/-- One slot changes, and no share. -/
theorem slot (h : s.AdmitInv) (hpids : t.PidInv) (hshares : t.ShareInv) (hleft : t.leftShare = s.leftShare)
    (hpace : t.mlfqStrideVal = s.mlfqStrideVal) (hdiv : t.divisors = s.divisors)
    (hother : ∀ q, q ≠ p → (s.proc q).Like (t.proc q) ∧ (s.proc q).Even (t.proc q)) (hp : (t.proc p).Sane) :
    t.AdmitInv where
  pids := hpids
  shares := hshares
  sane q := by
    by_cases hq : q = p
    · rwa [hq]
    · obtain ⟨hl, he⟩ := hother q hq
      exact (h.sane q).even he hl.pid hl.state.schedulable.mp fun _ ht _ => hl.isThread.symm.trans ht
  room := hleft ▸ h.room
  divisors := hdiv ▸ h.divisors
  pace := by
    rw [hdiv, hleft, hpace]
    exact h.pace

theorem spoiled {dir : Option Page} (h : s.AdmitInv) (hp : s.freeSlot = some p) (hnext : s.nextpid < 2 ^ 31 - 1) :
    (s.spoiled p dir).AdmitInv := by
  have hclaim := (@claims_spoiled s p dir).nextpid_eq h.pids.nextpid_pos hnext
  have hnew : (s.spoiled p dir).proc p =
      { (s.proc p).embryo s.nextpid (s.freeTid.getD 0) with pgdir := dir, kstack := none, state := .unused } := by
    unfold Kernel.spoiled
    rw [upd_proc_same, claimSlot_proc, if_pos rfl]
  refine h.slot (p := p) (h.pids.free drops_spoiled (by omega) ?_ fun _ => ?_) (h.shares.spoiled hp) rfl rfl rfl
    (fun q hq => ?_) ?_
  · rw [hnew, hclaim]
    exact Int.lt_succ s.nextpid
  · rw [hnew]
    rfl
  · rw [spoiled_proc_ne hq]
    exact ⟨.refl _, .refl _⟩
  · rw [hnew]
    exact .fresh (h.sane p).total_nonneg rfl fun _ => Int.one_pos

/-- The states in between of `thread_create`: no division by zero up to here. -/
theorem threaded (h : s.AdmitInv) (hc : (s.proc c).state = .running) (hthread : (s.proc c).isThread = false)
    (hp : s.freeSlot = some p) (hcnt : (s.proc c).cntThread < 2 ^ 31 - 1) (k : Page) (pass : ℚ) (f : Files) :
    (∀ q, ((s.threaded c p k pass f).proc q).Sane) ∧ (∀ d ∈ (s.threaded c p k pass f).divisors, d ≠ 0) ∧
      ((s.threaded c p k pass f).divisors ≠ [] ∨ s.leftShare < 100 → 0 < s.mlfqStrideVal) := by
  have hne := ne_freeSlot (used_of_running hc) hp
  have hsched := schedulable_of_running hc
  have hpos := (h.sane c).cnt_pos hsched
  have hwrap : wrap ((s.proc c).cntThread + 1) = (s.proc c).cntThread + 1 := by
    rw [wrap_of_range] <;> omega
  have hcaller := s.counted_caller (k := k) hne
  have hcounted : ∀ q, ((s.counted c p k).proc q).Sane := by
    intro q
    by_cases hq : q = p
    · rw [hq, s.counted_proc_same k hne]
      exact .fresh (h.sane p).total_nonneg rfl fun _ => Int.one_pos
    · rw [s.counted_proc_ne k hq]
      refine (h.sane q).count fun hs => ?_
      split
      · next hqc =>
        rw [hqc, hwrap]
        omega
      · exact (h.sane q).cnt_pos hs
  have hreshared : (∀ q, (((s.counted c p k).reshared c pass).proc q).Sane) ∧
      (∀ d ∈ ((s.counted c p k).reshared c pass).divisors, d ≠ 0) ∧
      (((s.counted c p k).reshared c pass).divisors ≠ [] ∨ s.leftShare < 100 → 0 < s.mlfqStrideVal) := by
    unfold reshared
    rw [hcaller]
    split
    · exact ⟨hcounted, h.divisors, h.pace⟩
    · next hm =>
      -- The process of `c` has recorded a share, which is split.
      have htotal := (h.sane c).total_pos hsched hthread (Bool.eq_false_iff.mpr hm)
      have hcnt' : (0 : ℚ) < (wrap ((s.proc c).cntThread + 1) : Int) := by
        rw [hwrap]
        exact_mod_cast (by omega : 0 < (s.proc c).cntThread + 1)
      have hpaced := @paced_restride (s.counted c p k) (s.proc c).pid
        ((s.proc c).totalshare / (wrap ((s.proc c).cntThread + 1) : Int)) (wrap ((s.proc c).cntThread + 1) : Int) pass
        (div_pos (Int.cast_pos.mpr htotal) hcnt') hcnt'.ne'
      refine ⟨hpaced.sane hcounted fun q hq hqs hqt => ?_, fun d hd => ?_, fun _ => h.pace (.inr (h.left_lt htotal))⟩
      · have hqp : q ≠ p := by
          rintro rfl
          unfold Schedulable at hqs
          rw [s.counted_proc_same k hne] at hqs
          rcases hqs with hqs | hqs | hqs <;> cases hqs
        unfold Schedulable at hqs
        rw [s.counted_proc_ne k hqp] at hqs hqt hq ⊢
        obtain rfl := h.pids.alone q c hqs hsched hqt hthread hq
        exact htotal
      · exact (hpaced.divisors d hd).elim (h.divisors d) id
  obtain ⟨hsane, hdiv, hpace⟩ := hreshared
  refine ⟨fun q => ?_, hdiv, hpace⟩
  unfold Kernel.threaded
  dsimp only
  rw [setFiles_proc]
  by_cases hq : q = p
  · rw [hq, upd_proc_same]
    exact (hsane p).even ⟨rfl, rfl, rfl, rfl, rfl⟩ rfl id fun _ ht => by cases ht
  · rw [upd_proc_ne _ _ hq]
    exact hsane q

/-- The end of `thread_create`, one way or the other. -/
theorem created (h : s.AdmitInv) (hc : (s.proc c).state = .running) (hthread : (s.proc c).isThread = false)
    (hp : s.freeSlot = some p) (hok : s.nextpid < 2 ^ 31 - 1 ∧ (s.proc c).cntThread < 2 ^ 31 - 1) {k : Page} {pass : ℚ}
    {f : Files} {g : Proc → Proc} (hsame : ∀ x, (g x).pid = x.pid ∧ (g x).isThread = x.isThread ∧
      (g x).isMainThread = x.isMainThread ∧ x.Even (g x)) : ((s.threaded c p k pass f).upd p g).AdmitInv := by
  have hne := ne_freeSlot (used_of_running hc) hp
  obtain ⟨hsane, hdiv, hpace⟩ := h.threaded hc hthread hp hok.2 k pass f
  obtain ⟨m, sh, st, pa, hnew⟩ := s.threaded_proc_same k pass f hne
  have hleft : (s.threaded c p k pass f).leftShare = s.leftShare := threaded_leftShare
  have hval : (s.threaded c p k pass f).mlfqStrideVal = s.mlfqStrideVal := by
    rw [threaded_eq]
    rfl
  have hclaim := (@claims_threaded s c p k pass f).nextpid_eq h.pids.nextpid_pos hok.1
  obtain ⟨hpid, ht, hmain, heven⟩ := hsame ((s.threaded c p k pass f).proc p)
  have hpid' : (((s.threaded c p k pass f).upd p g).proc p).pid = (s.proc c).pid := by
    rw [upd_proc_same, hpid, hnew]
    rfl
  have ht' : (((s.threaded c p k pass f).upd p g).proc p).isThread = true := by
    rw [upd_proc_same, ht, hnew]
  refine ⟨h.pids.slot (p := p) (fun q hq => ?_) ?_ ?_ (fun _ => ?_) (fun hm => ?_) fun _ hnot => ?_,
    h.shares.threaded hne hp heven.totalshare, fun q => ?_, ?_, hdiv, ?_⟩
  · obtain ⟨m, sh, st, pa, n, hq'⟩ := s.threaded_proc_ne (c := c) k pass f hq
    rw [upd_proc_ne _ _ hq, hq']
    exact Proc.like_withShare _ _ _ _ _ _
  · rw [upd_nextpid, hclaim]
    omega
  · have hlt := h.pids.pid_lt c
    rw [hpid', upd_nextpid, hclaim]
    omega
  · rw [hpid']
    exact h.pids.used_pos c (used_of_running hc)
  · rw [upd_proc_same, hmain, hnew] at hm
    cases hm
  · rw [ht'] at hnot
    cases hnot
  · by_cases hq : q = p
    · rw [hq, upd_proc_same]
      refine (hsane p).thread heven hpid (ht.trans (by rw [hnew])) ?_
      rw [hnew]
      exact Int.one_pos
    · rw [upd_proc_ne _ _ hq]
      exact hsane q
  · rw [upd_leftShare, hleft]
    exact h.room
  · rw [upd_leftShare, upd_mlfqStrideVal, hleft, hval]
    exact hpace

/-- The share of a process goes back. -/
theorem bury (h : s.AdmitInv) {k : Page} (hpids : (s.buried p k).PidInv) (hshares : (s.buried p k).ShareInv) :
    (s.buried p k).AdmitInv := by
  have hsane : ∀ q, ((s.buried p k).proc q).Sane := by
    intro q
    by_cases hq : q = p
    · rw [hq, buried_proc_same]
      exact .given_back le_rfl rfl rfl
    · rw [buried_proc_ne hq]
      exact h.sane q
  have hmore : s.leftShare ≤ s.leftShare + (s.proc p).totalshare :=
    le_add_of_nonneg_right (Int.cast_nonneg (h.sane p).total_nonneg)
  refine ⟨hpids, hshares, hsane, ?_, ?_, ?_⟩
  · change 20 ≤ (s.refunded p (s.proc p).totalshare).leftShare
    rw [refunded_leftShare]
    split
    · exact h.room
    · exact h.room.trans hmore
  · change ∀ d ∈ (s.refunded p (s.proc p).totalshare).divisors, d ≠ 0
    unfold refunded
    split
    · exact h.divisors
    · intro d hd
      rcases List.mem_cons.mp hd with rfl | hd
      · exact (lt_of_lt_of_le (by norm_num) (h.room.trans hmore)).ne'
      · exact h.divisors d hd
  · change (s.refunded p (s.proc p).totalshare).divisors ≠ [] ∨ (s.refunded p (s.proc p).totalshare).leftShare < 100 →
      0 < (s.refunded p (s.proc p).totalshare).mlfqStrideVal
    unfold refunded
    split
    · exact h.pace
    · exact fun _ => div_pos STRIDENUM_pos (lt_of_lt_of_le (by norm_num) (h.room.trans hmore))

end Kernel.AdmitInv

theorem keeps_admitInv : Keeps AdmitOk Kernel.AdmitInv where
  like h hl he := h.like hl he
  setCpuShare h hc hrange hok := by
    refine (h.setCpuShare hc hrange hok).mono (fun _ t ht => ?_) fun _ _ => trivial
    rcases ht with ⟨-, rfl⟩ | ⟨-, ht⟩
    · exact h
    · exact ht
  forkSpoiled h _ hp hok _ := h.spoiled hp hok
  createSpoiled h _ _ hp hok := h.spoiled hp hok.1
  forked {s c p k d f} h hc hp hk hd hkd hok := by
    have hclaim := (@Kernel.claims_forked s c p k d f).nextpid_eq h.pids.nextpid_pos hok
    have hborn := @Kernel.forked_born s c p k d f
    have hother : ∀ q, q ≠ p → (s.proc q).Like ((s.forked c p k d f).proc q) ∧
        (s.proc q).Even ((s.forked c p k d f).proc q) := by
      intro q hq
      rw [Kernel.forked_proc_ne hq]
      exact ⟨.refl _, .refl _⟩
    refine h.slot (p := p) (h.pids.slot (fun q hq => (hother q hq).1) (by omega) ?_ (fun _ => ?_) (fun _ => ?_)
      fun _ _ q => ?_) (keeps_shareInv.forked h.shares hc hp hk hd hkd trivial) rfl rfl rfl hother ?_
    · rw [hborn.pid, hclaim]
      exact Int.lt_succ s.nextpid
    · rw [hborn.pid]
      exact h.pids.nextpid_pos
    · exact hborn.isThread
    · rw [hborn.pid]
      exact (h.pids.pid_lt q).ne
    · have hnew : ((s.forked c p k d f).proc p).isMLFQ = true ∧ ((s.forked c p k d f).proc p).cntThread = 1 := by
        unfold Kernel.forked
        rw [Kernel.upd_proc_same, Kernel.setFiles_proc, Kernel.upd_proc_same]
        change ((s.alloced p k).proc p).isMLFQ = true ∧ ((s.alloced p k).proc p).cntThread = 1
        rw [s.alloced_proc_same k]
        exact ⟨rfl, rfl⟩
      refine .fresh ?_ hnew.1 fun _ => ?_
      · rw [Kernel.forked_totalshare]
        exact (h.sane p).total_nonneg
      · rw [hnew.2]
        exact Int.one_pos
  threadUp {s c p k junk pass f} h hc hnot hp _ hok := by
    unfold Kernel.threadUp
    rw [Kernel.upd_upd]
    exact h.created hc hnot hp hok fun x => ⟨rfl, rfl, rfl, rfl, rfl, rfl, rfl, rfl⟩
  threadDown h hc hnot hp _ _ hok := h.created hc hnot hp hok fun x => ⟨rfl, rfl, rfl, rfl, rfl, rfl, rfl, rfl⟩
  exited h hc _ _ ht := by
    refine h.retire ht.retires ht.even fun q hq => ?_
    rw [hq]
    exact h.pids.used_pos _ (Kernel.used_of_running hc)
  threadExited {s t c v} h hc _ _ ht := by
    have hlike : s.Like (s.upd c fun x => { x with retval := v }) :=
      .of_upd ⟨.inl rfl, rfl, rfl, rfl, rfl, rfl, rfl, rfl, rfl⟩
    have heven : s.Even (s.upd c fun x => { x with retval := v }) := .of_upd ⟨rfl, rfl, rfl, rfl, rfl⟩
    have h' := h.like hlike heven
    refine h'.retire ht.retires ht.even fun q hq => h'.pids.used_pos q ?_
    rw [hq, hlike.used]
    exact Kernel.used_of_running hc
  imaged {s c dir usz n} h hc hfits hn hok := by
    have hr := @Kernel.reimages_imaged s c dir usz n
    have hpids := h.pids.image hr (by rw [Kernel.imaged_proc_same]; rfl) (by rw [Kernel.imaged_proc_same]; rfl)
    refine h.even Kernel.even_imaged hpids (keeps_shareInv.imaged h.shares hc hfits hn trivial) hr.pid_eq
      (fun q => (hr.schedulable q).mp) fun q _ hq _ => ?_
    by_cases hqc : q = c
    · rw [hqc] at hq ⊢
      rw [Kernel.imaged_proc_same] at hq
      exact hq
    · rwa [Kernel.imaged_proc_ne hqc] at hq
  execed {s t c dir old usz} h hc hnot hold hfits hok hz := by
    have hr := @Kernel.reimages_execed s c dir usz
    have hpids := h.pids.promote (Kernel.used_of_running hc) hr (by rw [Kernel.execed_proc_same]; exact hnot) hz
    refine h.even ((Kernel.even_execed.trans hz.even).trans Kernel.even_freeDir) (t := t.freeDir c old)
      ⟨hpids.nextpid_pos, hpids.pid_lt, hpids.used_pos, hpids.main_thread, hpids.alone⟩
      (keeps_shareInv.execed h.shares hc hnot hold hfits hok.conserveOk hz)
      (fun q => (hz.retires.same q).pid.trans (hr.pid_eq q))
      (fun q hq => (hr.schedulable q).mp ((hz.retires.schedulable q).mp hq).1) fun q _ hq _ => ?_
    have hq : ((s.execed c dir usz).proc q).isThread = false := (hz.retires.same q).isThread.symm.trans hq
    by_cases hqc : q = c
    · rw [hqc]
      exact hnot
    · rwa [Kernel.execed_proc_ne hqc] at hq
  promoted {s t c m dir old usz} h hc hthread hold hm hfits hok hz := by
    have hr := @Kernel.reimages_promoted s c m dir usz
    obtain ⟨b, hb⟩ := @Kernel.promoted_proc_same s c m dir usz
    have hpids := h.pids.promote (Kernel.used_of_running hc) hr (by rw [hb]; rfl) hz
    refine h.even ((Kernel.even_promoted.trans hz.even).trans Kernel.even_freeDir) (t := t.freeDir c old)
      ⟨hpids.nextpid_pos, hpids.pid_lt, hpids.used_pos, hpids.main_thread, hpids.alone⟩
      (keeps_shareInv.promoted h.shares hc hthread hold hm hfits hok.conserveOk hz)
      (fun q => (hz.retires.same q).pid.trans (hr.pid_eq q))
      (fun q hq => (hr.schedulable q).mp ((hz.retires.schedulable q).mp hq).1) fun q _ hq hmode => ?_
    by_cases hqc : q = c
    · rw [hqc, (hok hthread).1] at hmode
      cases hmode
    · exact (hr.ne q hqc).2.2.1.symm.trans ((hz.retires.same q).isThread.symm.trans hq)
  reaped {s p k} h hz hmain hk := by
    have hpids : (s.reaped p k).PidInv := by
      refine h.pids.free Kernel.drops_reaped le_rfl ?_ fun hm => ?_
      · rw [Kernel.reaped_proc_same]
        exact h.pids.nextpid_pos
      · rw [Kernel.reaped_proc_same] at hm
        exact absurd (hmain.symm.trans hm) (by decide)
    refine h.slot (p := p) hpids (keeps_shareInv.reaped h.shares hz hmain hk) rfl rfl rfl (fun q hq => ?_) ?_
    · rw [Kernel.reaped_proc_ne hq]
      exact ⟨.refl _, .refl _⟩
    · rw [Kernel.reaped_proc_same]
      exact .given_back (h.sane p).total_nonneg rfl rfl
  buried {s p k d} h hz hmain hk hd := by
    have hnext : (s.buried p k).nextpid = s.nextpid := by
      unfold Kernel.buried Kernel.reaped
      rw [Kernel.refunded_eq]
      rfl
    have hpids : (s.buried p k).PidInv := by
      refine h.pids.free Kernel.drops_buried hnext.ge ?_ fun _ => ?_
      · rw [Kernel.buried_proc_same, hnext]
        exact h.pids.nextpid_pos
      · rw [Kernel.buried_proc_same]
        exact h.pids.main_thread p hmain
    obtain ⟨hbal, hzero⟩ := keeps_shareInv.buried h.shares hz hmain hk hd
    obtain ⟨hp, hs, hsane, hroom, hdiv, hpace⟩ := h.bury hpids ⟨hbal, hzero⟩
    exact ⟨⟨hp.nextpid_pos, hp.pid_lt, hp.used_pos, hp.main_thread, hp.alone⟩, ⟨hs.balanced, hs.zero⟩, hsane, hroom, hdiv,
      hpace⟩
  joined {s c p k thread t} h hc ht hp hk hok := by
    have hm := hok (p, t) ht hp
    have hsame : s.refunded p (s.proc p).share = s := if_pos hm
    obtain ⟨j, hj⟩ := @Kernel.joined_proc_same s c p k
    have hnext : (s.joined c p k).nextpid = s.nextpid ∧ (s.joined c p k).leftShare = s.leftShare ∧
        (s.joined c p k).mlfqStrideVal = s.mlfqStrideVal ∧ (s.joined c p k).divisors = s.divisors := by
      unfold Kernel.joined
      rw [hsame]
      exact ⟨rfl, rfl, rfl, rfl⟩
    have hpids : (s.joined c p k).PidInv := by
      refine h.pids.free Kernel.drops_joined hnext.1.ge ?_ fun hm => ?_
      · rw [hj, hnext.1]
        exact h.pids.nextpid_pos
      · rw [hj] at hm ⊢
        exact h.pids.main_thread p hm
    refine h.slot (p := p) hpids (keeps_shareInv.joined h.shares hc ht hp hk hok) hnext.2.1 hnext.2.2.1 hnext.2.2.2
      (fun q hq => ⟨Kernel.drops_joined.other q hq, ?_⟩) ?_
    · obtain ⟨j, hj⟩ := s.joined_proc_ne (c := c) (k := k) hq
      rw [hj]
      exact ⟨rfl, rfl, rfl, rfl, rfl⟩
    · rw [hj]
      exact .given_back (h.sane p).total_nonneg rfl rfl

theorem boot_admitInv {k d : Page} {root : InodePtr} : (boot k d root).AdmitInv := by
  have hzero : ∀ q, (boot k d root).Used q → q = 0 := fun q hq => eq_zero_of_boot_used hq
  refine ⟨⟨?_, fun q => ?_, fun q hq => ?_, fun q _ => ?_, fun p q hp hq _ _ _ => ?_⟩, boot_shareInv, fun q => ?_, ?_,
    fun d hd => ?_, fun hpace => ?_⟩
  · rw [boot_nextpid]
    exact zero_lt_two
  · rw [boot_proc, boot_nextpid]
    split
    · exact one_lt_two
    · exact zero_lt_two
  · rw [hzero q hq]
    exact Int.one_pos
  · rw [boot_proc]
    split <;> rfl
  · rw [hzero p (Kernel.used_of_schedulable _ p hp), hzero q (Kernel.used_of_schedulable _ q hq)]
  · rw [boot_proc]
    split
    · exact .fresh le_rfl rfl fun _ => Int.one_pos
    · exact .given_back le_rfl rfl rfl
  · change (20 : ℚ) ≤ 100
    norm_num
  · cases hd
  · rcases hpace with hpace | hpace
    · exact absurd rfl hpace
    · exact absurd (show (100 : ℚ) < 100 from hpace) (lt_irrefl _)

/-- In every state of a run that meets the condition: a request that meets it either
    returns -1 and changes nothing or returns the share with between 20 and 100 percent
    left, and does not stop; nothing was divided by zero, nor will be by `thread_create`;
    strides are positive. -/
theorem admission_safe {k d : Page} {root : InodePtr} {s : Kernel} (h : Run AdmitOk (boot k d root) s) :
    (∀ c share, (s.proc c).state = .running → -2 ^ 31 ≤ share ∧ share < 2 ^ 31 → AdmitOk s c (.setCpuShare share) →
      wp (setCpuShare c share) (fun r t => (r = -1 ∧ t = s) ∨
        (r = share ∧ 20 ≤ t.leftShare ∧ t.leftShare ≤ 100 ∧ ∀ d ∈ t.divisors, d ≠ 0)) (fun _ => False) s) ∧
    (∀ c p k junk pass f, (s.proc c).state = .running → (s.proc c).isThread = false → s.freeSlot = some p →
      AdmitOk s c (.threadCreate (some k) junk) → ∀ d ∈ (s.threaded c p k pass f).divisors, d ≠ 0) ∧
    (∀ d ∈ s.divisors, d ≠ 0) ∧ (∀ q, s.Used q → (s.proc q).isMLFQ = false → 0 < (s.proc q).stride) ∧
    (s.divisors ≠ [] ∨ s.leftShare < 100 → 0 < s.mlfqStrideVal) ∧ 20 ≤ s.leftShare ∧ s.leftShare ≤ 100 := by
  have hinv := keeps_admitInv.run h boot_admitInv
  refine ⟨fun c share hc hrange hok => ?_, fun c p k junk pass f hc ht hp hok => ?_, hinv.divisors, fun q hq hm => ?_,
    hinv.pace, hinv.room, hinv.left_le⟩
  · refine (hinv.setCpuShare hc hrange hok).post fun r t ht => ?_
    exact ht.imp_right fun ht => ⟨ht.1, ht.2.room, ht.2.left_le, ht.2.divisors⟩
  · exact (hinv.threaded hc ht hp hok.2 k pass f).2.1
  · exact (hinv.sane q).stride_pos hm (hinv.pids.used_pos q hq).ne'

/-- A process with a thread has 40 percent, and asks for 20 more for `init`. -/
theorem admission_safe_threads : ∃ s, Run AdmitOk (boot 0 1 0) s ∧ (s.proc 0).state = .running ∧ s.leftShare = 60 ∧
    AdmitOk s 0 (.setCpuShare 20) ∧
    wp (setCpuShare 0 20) (fun r t => (r = -1 ∧ t = s) ∨
      (r = 20 ∧ 20 ≤ t.leftShare ∧ t.leftShare ≤ 100 ∧ ∀ d ∈ t.divisors, d ≠ 0)) (fun _ => False) s := by
  have hplay : (play AdmitOk sharedChild (boot 0 1 0)).any (fun s => s.Schedulable 0 ∧
      ((s.dispatch 0).proc 0).state = .running ∧ (s.dispatch 0).leftShare = 60 ∧
      AdmitOk (s.dispatch 0) 0 (.setCpuShare 20)) = true := by
    decide +kernel
  obtain ⟨s, hrun, hs⟩ := Run.exists_of_play hplay
  obtain ⟨hsched, hc, hleft, hok⟩ := of_decide_eq_true hs
  have hrun := hrun.idle (Kernel.idle_dispatch hsched)
  exact ⟨_, hrun, hc, hleft, hok, (admission_safe hrun).1 0 20 hc (by decide) hok⟩

/-- Two requests of 40 leave less than nothing. After a negative request more than 100
    is left, and another process can reach the panic. One percent split between two
    threads is none, and their strides are quotients by zero. -/
theorem admission_unsafe :
    (∃ s, Run (fun _ _ _ => True) (boot 0 1 0) s ∧ s.leftShare = -20) ∧
    (∃ s, Run (fun _ _ _ => True) (boot 0 1 0) s ∧ (SysCall.setCpuShare 120).Ready s 1 ∧ 100 < s.leftShare ∧
      setCpuShare 1 120 s = .error .shareOverflow) ∧
    ∃ s, Run (fun _ _ _ => True) (boot 0 1 0) s ∧ 0 ∈ s.divisors := by
  refine ⟨?_, ?_, ?_⟩
  · have hplay : (play (fun _ _ _ => True) [(0, .setCpuShare 40), (0, .setCpuShare 40)] (boot 0 1 0)).any
        (fun s => s.leftShare = -20) = true := by
      decide +kernel
    obtain ⟨s, hrun, hs⟩ := Run.exists_of_play hplay
    exact ⟨s, hrun, of_decide_eq_true hs⟩
  · have hplay : (play (fun _ _ _ => True) [(0, .fork (some 2) (some 3)), (0, .setCpuShare (-50))] (boot 0 1 0)).any
        (fun s => s.Schedulable 1 ∧ (SysCall.setCpuShare 120).Ready (s.dispatch 1) 1 ∧ 100 < (s.dispatch 1).leftShare ∧
          (setCpuShare 1 120).stopsWith (s.dispatch 1) .shareOverflow = true) = true := by
      decide +kernel
    obtain ⟨s, hrun, hs⟩ := Run.exists_of_play hplay
    obtain ⟨hsched, hready, hleft, hstop⟩ := of_decide_eq_true hs
    exact ⟨_, hrun.idle (Kernel.idle_dispatch hsched), hready, hleft, eq_error_of_stopsWith hstop⟩
  · have hplay : (play (fun _ _ _ => True) [(0, .exec (.ok 2 8192)), (0, .threadCreate (some 3) 0), (0, .setCpuShare 1)]
        (boot 0 1 0)).any (fun s => (0 : ℚ) ∈ s.divisors) = true := by
      decide +kernel
    obtain ⟨s, hrun, hs⟩ := Run.exists_of_play hplay
    exact ⟨s, hrun, of_decide_eq_true hs⟩

end Xv6
