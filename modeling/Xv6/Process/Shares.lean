-- SUMMARY: CPU shares: what set_cpu_share takes, and what comes back.
import Xv6.Base.Ledger
import Xv6.Process.Runs

/-! # CPU shares

`leftShare` is a pot of 100 percent. `set_cpu_share` takes share out of it for the
process of the caller, whose main thread records it in `totalshare`, and `wait` puts it
back. A second request of a process takes the whole of its `totalshare` once more, a
thread that is joined gives back a part that its main thread gives back again, and a
main thread that `exec` of another thread has replaced gives back nothing.
-/

namespace Xv6

open Prog

/-! ## Rules for set_cpu_share -/

namespace Kernel

variable (s : Kernel)

/-- The slot that records what `c` requests. -/
def payer (c : Slot) : Option Slot := if (s.proc c).isMainThread then some c else (s.proc c).parent

/-- The state after `takeShare`. -/
def charged (m : Slot) (share : Int) : Kernel :=
  (s.upd m fun x => { x with totalshare := wrap (x.totalshare + share) }).addShare
    (-(wrap ((s.proc m).totalshare + share) : Int))

/-- `t` is the state after `assignStrides`: all threads, or `c` alone, are in stride mode. -/
inductive Strided (s : Kernel) (c : Slot) (share : Int) : Kernel → Prop
  | main (pass : ℚ) : (s.proc c).isMainThread = true → 1 < (s.proc c).cntThread →
    s.Strided c share ((s.noteDivisor (s.proc c).cntThread).restride (s.proc c).pid
      ((s.proc c).totalshare.tdiv (s.proc c).cntThread : Int) pass)
  | thread (pass : ℚ) (m : Slot) : ¬ ((s.proc c).isMainThread = true ∧ 1 < (s.proc c).cntThread) →
    (s.proc c).isThread = true → (s.proc c).parent = some m →
    s.Strided c share ((s.noteDivisor (s.proc m).cntThread).restride (s.proc c).pid
      (share.tdiv (s.proc m).cntThread : Int) pass)
  | single (pass : ℚ) : ¬ ((s.proc c).isMainThread = true ∧ 1 < (s.proc c).cntThread) →
    (s.proc c).isThread = false →
    s.Strided c share ((s.noteDivisor share).upd c fun x => x.toStride share (STRIDENUM.tdiv share : Int) pass)

end Kernel

section Rules

variable {s t : Kernel} {c m : Slot} {share : Int} {E : Halt → Prop}

theorem wp_takeShare {Q : Unit → Kernel → Prop} : wp (takeShare m share) Q E s ↔
    (100 < wrap ((s.proc m).totalshare + share) → E .shareOverflow) ∧
      (wrap ((s.proc m).totalshare + share) ≤ 100 → Q () (s.charged m share)) := by
  simp only [takeShare, wp_bind, wp_modifyProc, wp_procOf, Kernel.upd_proc_same]
  split
  · next h => exact ⟨fun hE => ⟨fun _ => hE, fun h' => absurd h (not_lt.mpr h')⟩, fun hE => hE.1 h⟩
  · next h => exact ⟨fun hQ => ⟨fun h' => absurd h' h, fun _ => hQ⟩, fun hQ => hQ.2 (not_lt.mp h)⟩

theorem wp_assignStrides {Q : Unit → Kernel → Prop} (hQ : ∀ t, s.Strided c share t → Q () t)
    (hnull : (s.proc c).isThread = true → (s.proc c).parent = none → E .nullProc) :
    wp (assignStrides c share) Q E s := by
  simp only [assignStrides, wp_bind, wp_get, wp_procOf]
  split
  · next h => exact hQ _ (.main _ h.1 h.2)
  · next h =>
    split
    · next hthread =>
      simp only [wp_bind, wp_derefProc, wp_procOf, divideBy, strideAll, wp_modify]
      exact ⟨hnull hthread, fun m hm => hQ _ (.thread _ m h hthread hm)⟩
    · next hthread => exact hQ _ (.single _ h (by simpa using hthread))

theorem wp_setCpuShare {Q : Int → Kernel → Prop}
    (hrefuse : s.leftShare - share < 20 ∨ share = 0 → Q (-1) s)
    (hgrant : 20 ≤ s.leftShare - share → share ≠ 0 → (s.payer c = none → E .nullProc) ∧
      ∀ m, s.payer c = some m → (100 < wrap ((s.proc m).totalshare + share) → E .shareOverflow) ∧
        (wrap ((s.proc m).totalshare + share) ≤ 100 →
          wp (assignStrides c share) (fun _ t => Q share t) E (s.charged m share).resetStride)) :
    wp (setCpuShare c share) Q E s := by
  simp only [setCpuShare, wp_bind, wp_get]
  split
  · next h => exact hrefuse (.inl h)
  · next h =>
    split
    · next h' => exact hrefuse (.inr h')
    · next h' =>
      obtain ⟨hnull, hrest⟩ := hgrant (not_lt.mp h) h'
      unfold Kernel.payer at hnull hrest
      simp only [wp_bind, cpuShare, wp_procOf]
      split
      · next hmain =>
        obtain ⟨hover, hend⟩ := hrest c (if_pos hmain)
        rw [wp_bind, wp_takeShare]
        exact ⟨hover, fun hle => hend hle⟩
      · next hmain =>
        simp only [wp_bind, wp_derefProc]
        refine ⟨fun hp => hnull (by rw [if_neg hmain, hp]), fun m hm => ?_⟩
        obtain ⟨hover, hend⟩ := hrest m (by rw [if_neg hmain, hm])
        rw [wp_takeShare]
        exact ⟨hover, fun hle => hend hle⟩

theorem Kernel.charged_proc_ne {q : Slot} (h : q ≠ m) : (s.charged m share).proc q = s.proc q := by
  unfold charged
  rw [addShare_proc, upd_proc_ne _ _ h]

theorem Kernel.charged_proc_same : (s.charged m share).proc m =
    { s.proc m with totalshare := wrap ((s.proc m).totalshare + share) } := by
  unfold charged
  rw [addShare_proc, upd_proc_same]

theorem Kernel.like_charged : s.Like (s.charged m share) := by
  have h : s.Like (s.upd m fun x => { x with totalshare := wrap (x.totalshare + share) }) :=
    .of_upd (Proc.like_of_totalshare _ _)
  exact h.trans (.of_proc rfl)

namespace Kernel.Strided

theorem like (h : s.Strided c share t) : s.Like t := by
  have hnote : ∀ d, s.Like (s.noteDivisor d) := fun d => .of_proc rfl
  cases h with
  | main pass _ _ => exact (hnote _).trans (Kernel.like_of_restride _ _ _)
  | thread pass m _ _ _ => exact (hnote _).trans (Kernel.like_of_restride _ _ _)
  | single pass _ _ => exact (hnote _).trans (.of_upd (Proc.like_of_toStride _ _ _ _))

theorem leftShare (h : s.Strided c share t) : t.leftShare = s.leftShare := by
  cases h <;> rfl

/-- Every slot is as before or goes into stride mode, and `c` does. -/
theorem proc (h : s.Strided c share t) (q : Slot) :
    (t.proc q = s.proc q ∧ q ≠ c) ∨ ∃ sh st pa, t.proc q = (s.proc q).toStride sh st pa := by
  have hall : ∀ d sh pa, ((s.noteDivisor d).restride (s.proc c).pid sh pa).proc q = s.proc q ∧ q ≠ c ∨
      ∃ sh' st' pa', ((s.noteDivisor d).restride (s.proc c).pid sh pa).proc q = (s.proc q).toStride sh' st' pa' := by
    intro d sh pa
    rw [Kernel.restride_proc]
    split
    · exact .inr ⟨_, _, _, rfl⟩
    · next hpid => exact .inl ⟨rfl, fun hq => hpid (hq ▸ rfl)⟩
  cases h with
  | main pass _ _ => exact hall _ _ _
  | thread pass m _ _ _ => exact hall _ _ _
  | single pass _ _ =>
    rw [Kernel.upd_proc]
    split
    · exact .inr ⟨_, _, _, rfl⟩
    · next hq => exact .inl ⟨rfl, hq⟩

/-- A thread takes its whole process along. -/
theorem group (h : s.Strided c share t) (hthread : (s.proc c).isThread = true) {q : Slot}
    (hq : (s.proc q).pid = (s.proc c).pid) : (t.proc q).isMLFQ = false := by
  have hall : ∀ d sh pa, (((s.noteDivisor d).restride (s.proc c).pid sh pa).proc q).isMLFQ = false := by
    intro d sh pa
    rw [Kernel.restride_proc]
    split
    · rfl
    · next hpid => exact absurd hq hpid
  cases h with
  | main pass _ _ => exact hall _ _ _
  | thread pass m _ _ _ => exact hall _ _ _
  | single pass _ hnot =>
    rw [hthread] at hnot
    cases hnot

end Kernel.Strided

end Rules

/-! ## Shares of the threads that thread_create leaves -/

/-- The share of each thread of `c` when there is one more. -/
def Kernel.nextShare (s : Kernel) (c : Slot) : ℚ :=
  ((s.proc c).totalshare : ℚ) / (wrap ((s.proc c).cntThread + 1) : Int)

/-- `x` after the threads of `c` got new shares. -/
def Kernel.split (s : Kernel) (c : Slot) (pass : ℚ) (x : Proc) : Proc :=
  if (s.proc c).isMLFQ = false ∧ x.pid = (s.proc c).pid then
    x.toStride (s.nextShare c) (STRIDENUM / s.nextShare c) pass
  else x

section Split

variable {s : Kernel} {c p q : Slot} {k : Page} {pass : ℚ} {f : Files}

theorem Kernel.counted_caller (hc : c ≠ p) : (s.counted c p k).proc c =
    { s.proc c with cntThread := wrap ((s.proc c).cntThread + 1) } := by
  rw [s.counted_proc_ne k hc, if_pos rfl]

theorem Kernel.reshared_counted (hc : c ≠ p) (q : Slot) :
    (((s.counted c p k).reshared c pass).proc q) = s.split c pass ((s.counted c p k).proc q) := by
  have hcaller := s.counted_caller (k := k) hc
  unfold reshared split nextShare
  rw [hcaller]
  by_cases hm : (s.proc c).isMLFQ = true
  · simp [hm]
  · rw [if_neg hm, restride_proc]
    simp [Bool.eq_false_iff.mpr hm]

theorem Kernel.threaded_proc_other (hc : c ≠ p) (hq : q ≠ p) : (s.threaded c p k pass f).proc q =
    s.split c pass { s.proc q with
      cntThread := if q = c then wrap ((s.proc q).cntThread + 1) else (s.proc q).cntThread } := by
  unfold threaded
  rw [setFiles_proc, upd_proc_ne _ _ hq, reshared_counted hc, s.counted_proc_ne k hq]

theorem Kernel.split_cases (x : Proc) : s.split c pass x = x ∨
    ((s.proc c).isMLFQ = false ∧ x.pid = (s.proc c).pid ∧
      s.split c pass x = x.toStride (s.nextShare c) (STRIDENUM / s.nextShare c) pass) := by
  unfold split
  split
  · next h => exact .inr ⟨h.1, h.2, rfl⟩
  · exact .inl rfl

/-- What each thread has had before it has after. -/
theorem Kernel.threaded_even (hq : q ≠ p) (hc : c ≠ p) :
    ((s.threaded c p k pass f).proc q).totalshare = (s.proc q).totalshare ∧
      ((s.proc q).isMLFQ = false → ((s.threaded c p k pass f).proc q).isMLFQ = false) := by
  rw [threaded_proc_other hc hq]
  rcases @Kernel.split_cases s c pass _ with h | ⟨-, -, h⟩
  · rw [h]
    exact ⟨rfl, id⟩
  · rw [h]
    exact ⟨rfl, fun _ => rfl⟩

theorem Kernel.threaded_new_totalshare (hc : c ≠ p) :
    ((s.threaded c p k pass f).proc p).totalshare = (s.proc p).totalshare := by
  obtain ⟨m, sh, st, pa, h⟩ := s.threaded_proc_same k pass f hc
  rw [h]
  rfl

theorem Kernel.threaded_leftShare : (s.threaded c p k pass f).leftShare = s.leftShare := by
  rw [threaded_eq]
  rfl

end Split

/-! ## Shares are conserved -/

/-- A main thread in stride mode: it holds share for its process. -/
def Proc.Holds (x : Proc) : Prop := x.state ≠ .unused ∧ x.isMainThread = true ∧ x.isMLFQ = false

instance (x : Proc) : Decidable x.Holds := inferInstanceAs (Decidable (_ ∧ _ ∧ _))

/-- All share is in the pot or recorded by a process that will give it back. -/
structure Kernel.ShareInv (s : Kernel) : Prop where
  balanced : Balanced s.leftShare (fun q => ((s.proc q).totalshare : ℚ)) 100
  zero : ∀ q, ¬ (s.proc q).Holds → (s.proc q).totalshare = 0

namespace Kernel.ShareInv

variable {s t : Kernel} {c p m : Slot}

/-- No share moves, and who holds some goes on to do so. -/
theorem keep (h : s.ShareInv) (hleft : t.leftShare = s.leftShare)
    (htotal : ∀ q, (t.proc q).totalshare = (s.proc q).totalshare)
    (hholds : ∀ q, (s.proc q).totalshare ≠ 0 → (s.proc q).Holds → (t.proc q).Holds) : t.ShareInv := by
  refine ⟨h.balanced.congr hleft fun q => by rw [htotal], fun q hq => ?_⟩
  rw [htotal]
  by_contra hne
  exact hq (hholds q hne (not_imp_comm.mp (h.zero q) hne))

theorem even (h : s.ShareInv) (he : s.Even t) (hused : ∀ q, s.Used q → t.Used q)
    (hmain : ∀ q, (s.proc q).totalshare ≠ 0 → (s.proc q).isMainThread = true → (t.proc q).isMainThread = true) :
    t.ShareInv :=
  h.keep he.leftShare (fun q => (he.proc q).totalshare) fun q hne hq =>
    ⟨hused q hq.1, hmain q hne hq.2.1, (he.proc q).isMLFQ.trans hq.2.2⟩

theorem like (h : s.ShareInv) (hl : s.Like t) (he : s.Even t) : t.ShareInv :=
  h.even he (fun q => (hl.used q).mpr) fun q _ hq => (hl.proc q).isMainThread.trans hq

theorem retire (h : s.ShareInv) {Z : Slot → Prop} (hr : s.Retires t Z) (he : s.Even t) : t.ShareInv :=
  h.even he (fun q hq => (hr.used q).mpr (.inl hq)) fun q _ hq => (hr.same q).isMainThread.trans hq

theorem zero_of_mlfq (h : s.ShareInv) (hp : (s.proc p).isMLFQ = true) : (s.proc p).totalshare = 0 :=
  h.zero p fun hh => Bool.false_ne_true (hh.2.2.symm.trans hp)

theorem zero_of_not_main (h : s.ShareInv) (hp : (s.proc p).isMainThread = false) : (s.proc p).totalshare = 0 :=
  h.zero p fun hh => Bool.false_ne_true (hp.symm.trans hh.2.1)

theorem total_eq_zero (h : s.ShareInv) (hp : s.freeSlot = some p) : (s.proc p).totalshare = 0 :=
  h.zero p fun hh => hh.1 (s.freeSlot_unused hp)

/-- A slot that holds nothing changes; others stay as they are, or go into stride mode. -/
theorem slot (h : s.ShareInv) (hleft : t.leftShare = s.leftShare) (hp : (s.proc p).totalshare = 0)
    (hp' : (t.proc p).totalshare = 0) (hother : ∀ q, q ≠ p → (s.proc q).Like (t.proc q))
    (hshare : ∀ q, q ≠ p → (t.proc q).totalshare = (s.proc q).totalshare ∧
      ((s.proc q).isMLFQ = false → (t.proc q).isMLFQ = false)) : t.ShareInv := by
  refine h.keep hleft (fun q => ?_) fun q hne hq => ?_
  · by_cases hqp : q = p
    · rw [hqp, hp, hp']
    · exact (hshare q hqp).1
  · have hqp : q ≠ p := by
      rintro rfl
      exact hne hp
    exact ⟨(hother q hqp).state.used.mpr hq.1, (hother q hqp).isMainThread.trans hq.2.1, (hshare q hqp).2 hq.2.2⟩

/-- Slot `m`, which had nothing, records a request. -/
theorem grant (h : s.ShareInv) {share : Int} (hrange : -2 ^ 31 ≤ share ∧ share < 2 ^ 31)
    (hzero : (s.proc m).totalshare = 0) (hs : (s.charged m share).resetStride.Strided c share t)
    (hm : (t.proc m).Holds) : t.ShareInv := by
  have hwrap : wrap ((s.proc m).totalshare + share) = share := by
    rw [hzero, zero_add, wrap_of_range hrange.1 hrange.2]
  have htotal : ∀ q, (t.proc q).totalshare = ((s.charged m share).proc q).totalshare := by
    intro q
    rcases hs.proc q with h | ⟨_, _, _, h⟩ <;> simp only [h] <;> rfl
  have hsame : ∀ q, q ≠ m → (t.proc q).totalshare = (s.proc q).totalshare := fun q hq => by
    rw [htotal, charged_proc_ne hq]
  have hnew : (t.proc m).totalshare = share := by
    rw [htotal, charged_proc_same]
    exact hwrap
  refine ⟨h.balanced.move m (fun q hq => by rw [hsame q hq]) ?_, fun q hq => ?_⟩
  · have hleft : t.leftShare = s.leftShare - share := by
      rw [hs.leftShare]
      change s.leftShare + -(wrap ((s.proc m).totalshare + share) : ℚ) = _
      rw [hwrap]
      ring
    rw [hleft, hnew, hzero]
    push_cast
    ring
  · have hqm : q ≠ m := by
      rintro rfl
      exact hq hm
    rw [hsame q hqm]
    refine h.zero q fun hh => hq ?_
    have hl := (like_charged.trans (.of_proc rfl) : s.Like (s.charged m share).resetStride).trans hs.like
    refine ⟨(hl.used q).mpr hh.1, (hl.proc q).isMainThread.trans hh.2.1, ?_⟩
    have hmode : ((s.charged m share).resetStride.proc q).isMLFQ = false := by
      rw [resetStride_proc, charged_proc_ne hqm]
      exact hh.2.2
    rcases hs.proc q with ⟨h, -⟩ | ⟨_, _, _, h⟩
    · rw [h, hmode]
    · rw [h]
      rfl

/-- The share that a main thread has recorded goes back. -/
theorem refund (h : s.ShareInv) (hother : ∀ q, q ≠ p → t.proc q = s.proc q) (hp : (t.proc p).totalshare = 0)
    (hleft : t.leftShare = s.leftShare + (s.proc p).totalshare) : t.ShareInv := by
  refine ⟨h.balanced.move p (fun q hq => by rw [hother q hq]) ?_, fun q hq => ?_⟩
  · rw [hp, hleft, Int.cast_zero, add_zero]
  · by_cases hqp : q = p
    · rw [hqp, hp]
    · rw [hother q hqp] at hq ⊢
      exact h.zero q hq

end Kernel.ShareInv

/-- What `c` requests is recorded by a main thread of its process that has not
    recorded anything yet. -/
def Kernel.FirstRequest (s : Kernel) (c : Slot) : Prop :=
  ((s.proc c).isMainThread = true ∧ (s.proc c).totalshare = 0) ∨
    ((s.proc c).isMainThread = false ∧ (s.proc c).isThread = true ∧ ∃ m, (s.proc c).parent = some m ∧ s.Used m ∧
      (s.proc m).isMainThread = true ∧ (s.proc m).pid = (s.proc c).pid ∧ (s.proc m).totalshare = 0)

instance (s : Kernel) (c : Slot) : Decidable (s.FirstRequest c) := inferInstanceAs (Decidable (_ ∨ _))

/-- Threads that `thread_join` gives back are not in stride mode. -/
def Kernel.JoinsIdle (s : Kernel) (c : Slot) (thread : Int) : Prop :=
  ∀ r, s.joinTarget c thread = some r → ¬ s.Pending c r.1 r.2 → (s.proc r.1).isMLFQ = true

instance (s : Kernel) (c : Slot) (thread : Int) : Decidable (s.JoinsIdle c thread) :=
  match h : s.joinTarget c thread with
  | none => .isTrue fun r hr => absurd (h.symm.trans hr) (by simp)
  | some r =>
    if h' : ¬ s.Pending c r.1 r.2 → (s.proc r.1).isMLFQ = true then
      .isTrue fun r' hr => Option.some.inj (h.symm.trans hr) ▸ h'
    else .isFalse fun hall => h' (hall r h)

/-- Requests that are granted are the first of their process; `thread_join` gives back
    no thread in stride mode; a thread that replaces its main thread takes over from
    one that has recorded no share. -/
def ConserveOk (s : Kernel) (c : Slot) : SysCall → Prop
  | .setCpuShare share => 20 ≤ s.leftShare - share → share ≠ 0 → s.FirstRequest c
  | .threadJoin thread => s.JoinsIdle c thread
  | .exec (.ok _ _) => (s.proc c).isThread = true → ∀ m, (s.proc c).parent = some m → (s.proc m).totalshare = 0
  | _ => True

instance (s : Kernel) (c : Slot) : (call : SysCall) → Decidable (ConserveOk s c call)
  | .setCpuShare share => inferInstanceAs (Decidable (20 ≤ s.leftShare - share → share ≠ 0 → s.FirstRequest c))
  | .threadJoin thread => inferInstanceAs (Decidable (s.JoinsIdle c thread))
  | .exec (.ok _ _) => inferInstanceAs (Decidable ((s.proc c).isThread = true → ∀ m, (s.proc c).parent = some m →
      (s.proc m).totalshare = 0))
  | .exec .bad | .exec (.short _ _ _) | .fork _ _ | .threadCreate _ _ | .threadExit _ | .exit | .wait | .kill _
  | .sbrk _ _ | .file _ => .isTrue trivial

section Keeps

variable {s t : Kernel} {c p m : Slot}

/-- The slot that records a first request holds it in the end. -/
theorem Kernel.FirstRequest.holds (h : s.FirstRequest c) (hc : (s.proc c).state = .running) {share : Int}
    (hm : s.payer c = some m) (hs : (s.charged m share).resetStride.Strided c share t) :
    (s.proc m).totalshare = 0 ∧ (t.proc m).Holds := by
  have hl := (like_charged.trans (.of_proc rfl) : s.Like (s.charged m share).resetStride).trans hs.like
  unfold payer at hm
  rcases h with ⟨hmain, hzero⟩ | ⟨hmain, hthread, m', hm', hused, hmain', hpid, hzero⟩
  · rw [if_pos hmain] at hm
    obtain rfl := Option.some.inj hm
    refine ⟨hzero, (hl.used c).mpr (used_of_running hc), (hl.proc c).isMainThread.trans hmain, ?_⟩
    rcases hs.proc c with ⟨-, h⟩ | ⟨_, _, _, h⟩
    · exact absurd rfl h
    · rw [h]
      rfl
  · rw [if_neg (by simp [hmain]), hm'] at hm
    obtain rfl := Option.some.inj hm
    have hcm : c ≠ m' := by
      rintro rfl
      rw [hmain] at hmain'
      cases hmain'
    refine ⟨hzero, (hl.used m').mpr hused, (hl.proc m').isMainThread.trans hmain', hs.group ?_ ?_⟩
    · rw [resetStride_proc, charged_proc_ne hcm]
      exact hthread
    · rw [resetStride_proc, charged_proc_same, resetStride_proc, charged_proc_ne hcm]
      exact hpid

theorem Kernel.ShareInv.setCpuShare (h : s.ShareInv) (hc : (s.proc c).state = .running) {share : Int}
    (hrange : -2 ^ 31 ≤ share ∧ share < 2 ^ 31) (hok : ConserveOk s c (.setCpuShare share)) :
    wp (setCpuShare c share) (fun _ t => t.ShareInv) (fun _ => True) s := by
  refine wp_setCpuShare (fun _ => h) fun hleft hne => ⟨fun _ => trivial, fun m hm => ⟨fun _ => trivial, fun _ => ?_⟩⟩
  refine wp_assignStrides (fun t ht => ?_) fun _ _ => trivial
  obtain ⟨hzero, hholds⟩ := (hok hleft hne).holds hc hm ht
  exact h.grant hrange hzero ht hholds

theorem Kernel.forked_totalshare {k d : Page} {f : Files} :
    ((s.forked c p k d f).proc p).totalshare = (s.proc p).totalshare := by
  unfold forked
  rw [upd_proc_same, setFiles_proc, upd_proc_same]
  change ((s.alloced p k).proc p).totalshare = _
  rw [s.alloced_proc_same k]
  rfl

theorem Kernel.spoiled_proc_ne {dir : Option Page} {q : Slot} (h : q ≠ p) : (s.spoiled p dir).proc q = s.proc q := by
  unfold spoiled
  rw [upd_proc_ne _ _ h, claimSlot_proc, if_neg h]

theorem Kernel.spoiled_totalshare {dir : Option Page} :
    ((s.spoiled p dir).proc p).totalshare = (s.proc p).totalshare := by
  unfold spoiled
  rw [upd_proc_same, claimSlot_proc, if_pos rfl]
  rfl

theorem Kernel.ShareInv.spoiled {dir : Option Page} (h : s.ShareInv) (hp : s.freeSlot = some p) :
    (s.spoiled p dir).ShareInv := by
  have hzero := h.total_eq_zero hp
  refine h.slot rfl hzero (spoiled_totalshare.trans hzero) drops_spoiled.other fun q hq => ?_
  rw [spoiled_proc_ne hq]
  exact ⟨rfl, id⟩

theorem Kernel.ShareInv.threaded (h : s.ShareInv) (hc : c ≠ p) (hp : s.freeSlot = some p) {k : Page} {pass : ℚ}
    {f : Files} {g : Proc → Proc} (hg : (g ((s.threaded c p k pass f).proc p)).totalshare =
      ((s.threaded c p k pass f).proc p).totalshare) : ((s.threaded c p k pass f).upd p g).ShareInv := by
  have hzero := h.total_eq_zero hp
  have hleft : (s.threaded c p k pass f).leftShare = s.leftShare := threaded_leftShare
  refine h.slot hleft hzero ?_ (fun q hq => ?_) fun q hq => ?_
  · rw [upd_proc_same, hg, threaded_new_totalshare hc, hzero]
  · obtain ⟨m, sh, st, pa, n, hq'⟩ := s.threaded_proc_ne (c := c) k pass f hq
    rw [upd_proc_ne _ _ hq, hq']
    exact Proc.like_withShare _ _ _ _ _ _
  · rw [upd_proc_ne _ _ hq]
    exact threaded_even hq hc

theorem Kernel.refunded_leftShare {share : ℚ} : (s.refunded p share).leftShare =
    if (s.proc p).isMLFQ then s.leftShare else s.leftShare + share := by
  unfold refunded
  split <;> rfl

theorem keeps_shareInv : Keeps ConserveOk Kernel.ShareInv where
  like h hl he := h.like hl he
  setCpuShare h hc hrange hok := h.setCpuShare hc hrange hok
  forkSpoiled h _ hp _ _ := h.spoiled hp
  createSpoiled h _ _ hp _ := h.spoiled hp
  forked h _ hp _ _ _ _ := by
    have hzero := h.total_eq_zero hp
    refine h.slot rfl hzero (Kernel.forked_totalshare.trans hzero) (fun q hq => ?_) fun q hq => ?_
    · rw [Kernel.forked_proc_ne hq]
      exact .refl _
    · rw [Kernel.forked_proc_ne hq]
      exact ⟨rfl, id⟩
  threadUp {s c p k junk pass f} h hc _ hp _ _ := by
    have hne := Kernel.ne_freeSlot (Kernel.used_of_running hc) hp
    unfold Kernel.threadUp
    rw [Kernel.upd_upd]
    exact h.threaded hne hp rfl
  threadDown h hc _ hp _ _ _ := h.threaded (Kernel.ne_freeSlot (Kernel.used_of_running hc) hp) hp rfl
  exited h _ _ _ ht := h.retire ht.retires ht.even
  threadExited {s t c v} h _ _ _ ht := by
    have hlike : s.Like (s.upd c fun x => { x with retval := v }) :=
      .of_upd ⟨.inl rfl, rfl, rfl, rfl, rfl, rfl, rfl, rfl, rfl⟩
    have heven : s.Even (s.upd c fun x => { x with retval := v }) := .of_upd ⟨rfl, rfl, rfl, rfl, rfl⟩
    exact (h.like hlike heven).retire ht.retires ht.even
  imaged {s c dir usz n} h _ _ _ _ := by
    refine h.even Kernel.even_imaged (fun q hq => (Kernel.reimages_imaged.used q).mpr hq) fun q _ hq => ?_
    by_cases hqc : q = c
    · rw [hqc] at hq ⊢
      rw [Kernel.imaged_proc_same]
      exact hq
    · rwa [Kernel.imaged_proc_ne hqc]
  execed {s t c dir old usz} h _ _ _ _ _ hz := by
    have himage : (s.execed c dir usz).ShareInv := by
      refine h.even Kernel.even_execed (fun q hq => (Kernel.reimages_execed.used q).mpr hq) fun q _ hq => ?_
      by_cases hqc : q = c
      · rw [hqc] at hq ⊢
        rw [Kernel.execed_proc_same]
        exact hq
      · rwa [Kernel.execed_proc_ne hqc]
    obtain ⟨h₁, h₂⟩ := himage.retire hz.retires hz.even
    exact ⟨h₁, h₂⟩
  promoted {s t c m dir old usz} h _ hthread _ hm _ hok hz := by
    have himage : (s.promoted c m dir usz).ShareInv := by
      refine h.even Kernel.even_promoted (fun q hq => (Kernel.reimages_promoted.used q).mpr hq) fun q hne hq => ?_
      -- The slot that is no main thread any more has recorded nothing.
      have hqm : q ≠ m := by
        rintro rfl
        exact hne (hok hthread q hm)
      by_cases hqc : q = c
      · obtain ⟨b, hb⟩ := @Kernel.promoted_proc_same s c m dir usz
        rw [hqc, hb]
        rfl
      · rwa [Kernel.promoted_proc_ne hqc hqm]
    obtain ⟨h₁, h₂⟩ := himage.retire hz.retires hz.even
    exact ⟨h₁, h₂⟩
  reaped {s p k} h _ hmain _ := by
    have hzero := h.zero_of_not_main hmain
    refine h.slot rfl hzero ?_ Kernel.drops_reaped.other fun q hq => ?_
    · rw [Kernel.reaped_proc_same]
      exact hzero
    · rw [Kernel.reaped_proc_ne hq]
      exact ⟨rfl, id⟩
  buried {s p k d} h hz hmain _ _ := by
    have hleft : (s.buried p k).leftShare = s.leftShare + (s.proc p).totalshare := by
      change (s.refunded p (s.proc p).totalshare).leftShare = _
      rw [Kernel.refunded_leftShare]
      split
      · next hm =>
        rw [h.zero_of_mlfq hm, Int.cast_zero, add_zero]
      · rfl
    have hgone : (s.buried p k).ShareInv := by
      refine h.refund (fun q hq => Kernel.buried_proc_ne hq) ?_ hleft
      rw [Kernel.buried_proc_same]
    obtain ⟨h₁, h₂⟩ := hgone
    exact ⟨h₁, h₂⟩
  joined {s c p k thread t} h hc ht hp hk hok := by
    have hm := hok (p, t) ht hp
    have hzero := h.zero_of_mlfq hm
    refine h.slot ?_ hzero ?_ Kernel.drops_joined.other fun q hq => ?_
    · change (s.refunded p (s.proc p).share).leftShare = _
      rw [Kernel.refunded_leftShare, if_pos hm]
    · obtain ⟨j, hj⟩ := @Kernel.joined_proc_same s c p k
      rw [hj]
      exact hzero
    · obtain ⟨j, hj⟩ := s.joined_proc_ne (c := c) (k := k) hq
      rw [hj]
      exact ⟨rfl, id⟩

end Keeps

theorem boot_totalshare {k d : Page} {root : InodePtr} (q : Slot) : ((boot k d root).proc q).totalshare = 0 := by
  rw [boot_proc]
  split <;> rfl

theorem boot_shareInv {k d : Page} {root : InodePtr} : (boot k d root).ShareInv := by
  refine ⟨?_, fun q _ => boot_totalshare q⟩
  unfold Balanced
  simp only [boot_totalshare, Int.cast_zero, Finset.sum_const_zero, add_zero]
  rfl

/-- The share that main threads in stride mode have recorded. -/
def Kernel.recorded (s : Kernel) : ℚ :=
  ∑ q with s.Used q ∧ (s.proc q).isMainThread = true ∧ (s.proc q).isMLFQ = false, ((s.proc q).totalshare : ℚ)

/-- In every run that meets the condition, what is left and what the main threads in
    stride mode have recorded is 100 percent. -/
theorem shares_conserved {k d : Page} {root : InodePtr} {s : Kernel} (h : Run ConserveOk (boot k d root) s) :
    s.leftShare + s.recorded = 100 := by
  have hinv := keeps_shareInv.run h boot_shareInv
  refine hinv.balanced.filter _ fun q hq => ?_
  rw [hinv.zero q hq, Int.cast_zero]

/-- `init` has a share, and so has a child, by request of one of its threads. -/
def shareRequests : List (Slot × SysCall) :=
  [(0, .setCpuShare 30), (0, .fork (some 2) (some 3)), (1, .exec (.ok 4 8192)), (1, .threadCreate (some 5) 0),
    (2, .setCpuShare 40)]

theorem shares_conserved_requests : ∃ s, Run ConserveOk (boot 0 1 0) s ∧ s.leftShare = 30 ∧
    s.leftShare + s.recorded = 100 := by
  have hplay : (play ConserveOk shareRequests (boot 0 1 0)).any (fun s => s.leftShare = 30) = true := by decide +kernel
  obtain ⟨s, hrun, hs⟩ := Run.exists_of_play hplay
  exact ⟨s, hrun, of_decide_eq_true hs, shares_conserved hrun⟩

/-- A child of `init` has a thread and a share. -/
def sharedChild : List (Slot × SysCall) :=
  [(0, .fork (some 2) (some 3)), (1, .exec (.ok 4 8192)), (1, .threadCreate (some 5) 0), (1, .setCpuShare 40)]

/-- A second request is taken out of the pot together with the first. A thread that is
    joined gives back what its main thread still records. What a main thread has
    recorded is lost when another thread takes its place. -/
theorem share_not_conserved :
    (∃ s, Run (fun _ _ _ => True) (boot 0 1 0) s ∧ s.leftShare + s.recorded = 80) ∧
    (∃ s, Run (fun _ _ _ => True) (boot 0 1 0) s ∧ s.leftShare + s.recorded = 120) ∧
    ∃ s, Run (fun _ _ _ => True) (boot 0 1 0) s ∧ s.leftShare + s.recorded = 60 := by
  have hsum : ∀ (calls : List (Slot × SysCall)) (n : ℚ), (play (fun _ _ _ => True) calls (boot 0 1 0)).any
      (fun s => s.leftShare + s.recorded = n) = true →
      ∃ s, Run (fun _ _ _ => True) (boot 0 1 0) s ∧ s.leftShare + s.recorded = n := by
    intro calls n hplay
    obtain ⟨s, hrun, hs⟩ := Run.exists_of_play hplay
    exact ⟨s, hrun, of_decide_eq_true hs⟩
  refine ⟨hsum [(0, .setCpuShare 20), (0, .setCpuShare 20)] 80 ?_,
    hsum (sharedChild ++ [(2, .threadExit 0), (1, .threadJoin 2)]) 120 ?_,
    hsum (sharedChild ++ [(2, .exec (.ok 6 8192))]) 60 ?_⟩
  · decide +kernel
  · decide +kernel
  · decide +kernel

end Xv6
