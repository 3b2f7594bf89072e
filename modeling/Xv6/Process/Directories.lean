-- SUMMARY: When page directories are freed.
import Xv6.Process.Runs

/-! # Page directories

The threads of a process share one page directory, without a reference count; it is
freed with the slot that is the main thread, or when a thread calls `exec`. Nothing
keeps a main thread from calling `thread_exit` while other threads go on, and then
`wait` frees the directory that they use. In runs without that, `freevm` is only
called for directories that nobody uses any more.
-/

namespace Xv6

open Prog

/-- The process counts on its page directory: it can be scheduled, or frees the
    directory when it is reaped. -/
def Kernel.Owner (s : Kernel) (q : Slot) : Prop :=
  s.Schedulable q ∨ (s.Used q ∧ (s.proc q).isMainThread = true)

/-- Who has which pages, and what page directories and pids say about each other. -/
structure Kernel.PageInv (s : Kernel) : Prop where
  nextpid_pos : 0 < s.nextpid
  pid_lt : ∀ q, (s.proc q).pid < s.nextpid
  pid_pos : ∀ q, s.Schedulable q → 0 < (s.proc q).pid
  stack_live : ∀ q k, (s.proc q).kstack = some k → k ∈ s.live
  stack_inj : ∀ p q k, (s.proc p).kstack = some k → (s.proc q).kstack = some k → p = q
  stack_used : ∀ q, ¬ s.Used q → (s.proc q).kstack = none
  dir_live : ∀ q, s.Owner q → ∃ d, (s.proc q).pgdir = some d ∧ d ∈ s.live
  dir_stack : ∀ p q d, s.Owner q → (s.proc q).pgdir = some d → (s.proc p).kstack ≠ some d
  main_inj : ∀ p q, s.Used p → (s.proc p).isMainThread = true → s.Used q → (s.proc q).isMainThread = true →
    (s.proc p).pgdir = (s.proc q).pgdir → p = q
  main_zombie : ∀ p q, (s.proc p).state = .zombie → (s.proc p).isMainThread = true → s.Schedulable q →
    (s.proc p).pgdir ≠ (s.proc q).pgdir
  same_pid : ∀ p q, s.Schedulable p → s.Schedulable q → (s.proc p).pgdir = (s.proc q).pgdir →
    (s.proc p).pid = (s.proc q).pid
  /-- Who shares a directory with a main thread is a thread of it. -/
  main_of : ∀ p q, s.Used p → (s.proc p).isMainThread = true → s.Schedulable q →
    (s.proc p).pgdir = (s.proc q).pgdir → q = p ∨ ((s.proc q).isThread = true ∧ (s.proc q).parent = some p)
  /-- A free slot that was a main thread does not look like one of a running process. -/
  main_unused : ∀ p q, ¬ s.Used p → (s.proc p).isMainThread = true → s.Schedulable q → (s.proc p).pid ≠ (s.proc q).pid
  settled : ∀ q, s.Used q → s.Schedulable q ∨ (s.proc q).state = .zombie
  freed : ∀ e ∈ s.freevms, e.live = true ∧ e.users = []

namespace Kernel.PageInv

variable {s t : Kernel} {c p : Slot}

theorem like (h : s.PageInv) (hlike : s.Like t) : t.PageInv := by
  have hu := hlike.used
  have hs := hlike.schedulable
  have ho : ∀ q, t.Owner q ↔ s.Owner q := by
    intro q
    unfold Kernel.Owner
    rw [hu, hs, (hlike.proc q).isMainThread]
  constructor
  · rw [hlike.nextpid]
    exact h.nextpid_pos
  · intro q
    rw [hlike.nextpid, (hlike.proc q).pid]
    exact h.pid_lt q
  · intro q hq
    rw [(hlike.proc q).pid]
    exact h.pid_pos q ((hs q).mp hq)
  · intro q k hk
    rw [hlike.live]
    exact h.stack_live q k ((hlike.proc q).kstack ▸ hk)
  · intro p q k hp hq
    exact h.stack_inj p q k ((hlike.proc p).kstack ▸ hp) ((hlike.proc q).kstack ▸ hq)
  · intro q hq
    rw [(hlike.proc q).kstack]
    exact h.stack_used q (by rwa [hu] at hq)
  · intro q hq
    rw [(hlike.proc q).pgdir, hlike.live]
    exact h.dir_live q ((ho q).mp hq)
  · intro p q d hq hd
    rw [(hlike.proc p).kstack]
    exact h.dir_stack p q d ((ho q).mp hq) ((hlike.proc q).pgdir ▸ hd)
  · intro p q
    rw [hu, hu, (hlike.proc p).isMainThread, (hlike.proc q).isMainThread, (hlike.proc p).pgdir, (hlike.proc q).pgdir]
    exact h.main_inj p q
  · intro p q
    rw [(hlike.proc p).state.zombie, hs, (hlike.proc p).isMainThread, (hlike.proc p).pgdir, (hlike.proc q).pgdir]
    exact h.main_zombie p q
  · intro p q
    rw [hs, hs, (hlike.proc p).pgdir, (hlike.proc q).pgdir, (hlike.proc p).pid, (hlike.proc q).pid]
    exact h.same_pid p q
  · intro p q
    rw [hu, hs, (hlike.proc p).isMainThread, (hlike.proc p).pgdir, (hlike.proc q).pgdir, (hlike.proc q).isThread,
      (hlike.proc q).parent]
    exact h.main_of p q
  · intro p q
    rw [hu, hs, (hlike.proc p).isMainThread, (hlike.proc p).pid, (hlike.proc q).pid]
    exact h.main_unused p q
  · intro q
    rw [hu, hs, (hlike.proc q).state.zombie]
    exact h.settled q
  · rw [hlike.freevms]
    exact h.freed

/-- Zombies must not be main threads that others still need. -/
theorem retire (h : s.PageInv) {Z : Slot → Prop} (hr : s.Retires t Z)
    (hmain : ∀ p, Z p → (s.proc p).isMainThread = true → s.Used p ∧
      ∀ q, s.Schedulable q → ¬ Z q → (s.proc p).pgdir ≠ (s.proc q).pgdir)
    (hparent : ∀ p q, s.Used p → (s.proc p).isMainThread = true → s.Schedulable q → ¬ Z q → q ≠ p →
      (s.proc p).pgdir = (s.proc q).pgdir → (t.proc q).parent = (s.proc q).parent) : t.PageInv := by
  have hused : ∀ q, t.Used q → (s.proc q).isMainThread = true → s.Used q := fun q hq hm =>
    ((hr.used q).mp hq).elim id fun hz => (hmain q hz hm).1
  have howner : ∀ q, t.Owner q → s.Owner q := by
    rintro q (hq | ⟨hq, hm⟩)
    · exact .inl ((hr.schedulable q).mp hq).1
    · rw [(hr.same q).isMainThread] at hm
      exact .inr ⟨hused q hq hm, hm⟩
  constructor
  case nextpid_pos => exact hr.rest.nextpid ▸ h.nextpid_pos
  case pid_lt => exact fun q => by rw [hr.rest.nextpid, (hr.same q).pid]; exact h.pid_lt q
  case pid_pos => exact fun q hq => by rw [(hr.same q).pid]; exact h.pid_pos q ((hr.schedulable q).mp hq).1
  case stack_live =>
    intro q k hk
    rw [hr.rest.live]
    exact h.stack_live q k ((hr.same q).kstack ▸ hk)
  case stack_inj =>
    intro p q k hp hq
    exact h.stack_inj p q k ((hr.same p).kstack ▸ hp) ((hr.same q).kstack ▸ hq)
  case stack_used =>
    intro q hq
    rw [(hr.same q).kstack]
    exact h.stack_used q fun hu => hq ((hr.used q).mpr (.inl hu))
  case dir_live =>
    intro q hq
    rw [(hr.same q).pgdir, hr.rest.live]
    exact h.dir_live q (howner q hq)
  case dir_stack =>
    intro p q d hq hd
    rw [(hr.same p).kstack]
    exact h.dir_stack p q d (howner q hq) ((hr.same q).pgdir ▸ hd)
  case main_inj =>
    intro p q hp hpm hq hqm hd
    rw [(hr.same p).isMainThread] at hpm
    rw [(hr.same q).isMainThread] at hqm
    rw [(hr.same p).pgdir, (hr.same q).pgdir] at hd
    exact h.main_inj p q (hused p hp hpm) hpm (hused q hq hqm) hqm hd
  case main_zombie =>
    intro p q hp hpm hq
    rw [(hr.same p).isMainThread] at hpm
    rw [(hr.same p).pgdir, (hr.same q).pgdir]
    obtain ⟨hq, hqz⟩ := (hr.schedulable q).mp hq
    rcases (hr.zombie p).mp hp with hz | hz
    · exact h.main_zombie p q hz hpm hq
    · exact (hmain p hz hpm).2 q hq hqz
  case same_pid =>
    intro p q hp hq hd
    rw [(hr.same p).pgdir, (hr.same q).pgdir] at hd
    rw [(hr.same p).pid, (hr.same q).pid]
    exact h.same_pid p q ((hr.schedulable p).mp hp).1 ((hr.schedulable q).mp hq).1 hd
  case main_of =>
    intro p q hp hpm hq hd
    rw [(hr.same p).isMainThread] at hpm
    rw [(hr.same p).pgdir, (hr.same q).pgdir] at hd
    obtain ⟨hq, hqz⟩ := (hr.schedulable q).mp hq
    refine or_iff_not_imp_left.mpr fun hne => ?_
    rw [(hr.same q).isThread, hparent p q (hused p hp hpm) hpm hq hqz hne hd]
    exact (h.main_of p q (hused p hp hpm) hpm hq hd).resolve_left hne
  case main_unused =>
    intro p q hp hpm hq
    rw [(hr.same p).isMainThread] at hpm
    rw [(hr.same p).pid, (hr.same q).pid]
    exact h.main_unused p q (fun hu => hp ((hr.used p).mpr (.inl hu))) hpm ((hr.schedulable q).mp hq).1
  case settled =>
    intro q hq
    rw [hr.schedulable, hr.zombie]
    by_cases hz : Z q
    · exact .inr (.inr hz)
    · have hu : s.Used q := ((hr.used q).mp hq).resolve_right hz
      exact (h.settled q hu).imp (⟨·, hz⟩) .inl
  case freed => exact hr.rest.freevms ▸ h.freed

/-- A process that can be scheduled gets a new directory, which nobody has yet. -/
theorem image (h : s.PageInv) {dir : Page} (hr : s.Reimages t c dir) (hc : s.Schedulable c) (hfresh : dir ∉ s.live) :
    t.PageInv := by
  have hstate := hr.state_eq
  have hpid := hr.pid_eq
  have hstack := hr.kstack_eq
  have hsched := hr.schedulable
  have hused := hr.used
  have hother := hr.ne
  have hself := hr.pgdir
  have hlive := hr.live
  have hnext := hr.nextpid
  have hfree := hr.freevms
  have hsu := s.used_of_schedulable
  have hzu := s.used_of_zombie
  have hsz := s.not_zombie_of_schedulable
  clear hr
  obtain ⟨_, _, _, _, _, _, _, _, _, _, _, _, _, _, _⟩ := h
  constructor <;> grind [Owner]

/-- A slot that is free keeps nobody's pages. -/
theorem drop (h : s.PageInv) (hd : s.Drops t p) (hnext : s.nextpid ≤ t.nextpid) (hpid : (t.proc p).pid < t.nextpid)
    (hmain : (t.proc p).isMainThread = true → ∀ q, s.Schedulable q → (t.proc p).pid ≠ (s.proc q).pid)
    (hlive : ∀ a ∈ s.live, (s.proc p).kstack ≠ some a → a ∈ t.live) (hfree : t.freevms = s.freevms) : t.PageInv := by
  have hsched : ∀ q, q ≠ p → (t.Schedulable q ↔ s.Schedulable q) := fun q hq => (hd.other q hq).state.schedulable
  have hused : ∀ q, q ≠ p → (t.Used q ↔ s.Used q) := fun q hq => (hd.other q hq).state.used
  have hzombie : ∀ q, q ≠ p → ((t.proc q).state = .zombie ↔ (s.proc q).state = .zombie) := fun q hq =>
    (hd.other q hq).state.zombie
  have hsame : ∀ q, q ≠ p → (t.proc q).pid = (s.proc q).pid ∧ (t.proc q).pgdir = (s.proc q).pgdir ∧
      (t.proc q).kstack = (s.proc q).kstack ∧ (t.proc q).isThread = (s.proc q).isThread ∧
      (t.proc q).isMainThread = (s.proc q).isMainThread ∧ (t.proc q).parent = (s.proc q).parent := fun q hq =>
    have hl := hd.other q hq
    ⟨hl.pid, hl.pgdir, hl.kstack, hl.isThread, hl.isMainThread, hl.parent⟩
  have hunused := hd.unused
  have hstack := hd.kstack
  have howner : ∀ q, t.Owner q → q ≠ p ∧ s.Owner q := by
    rintro q hq
    have hqp : q ≠ p := by
      rintro rfl
      exact hunused (hq.elim (t.used_of_schedulable q) And.left)
    refine ⟨hqp, ?_⟩
    unfold Owner at *
    rwa [← hsched q hqp, ← hused q hqp, ← (hsame q hqp).2.2.2.2.1]
  have hdir : ∀ q, t.Owner q → ∃ d, (t.proc q).pgdir = some d ∧ d ∈ t.live := by
    intro q hq
    obtain ⟨hqp, hq⟩ := howner q hq
    obtain ⟨d, hd, hl⟩ := h.dir_live q hq
    exact ⟨d, (hsame q hqp).2.1.trans hd, hlive d hl (h.dir_stack p q d hq hd)⟩
  have hsu := t.used_of_schedulable
  have hzu := t.used_of_zombie
  have hsz := t.not_zombie_of_schedulable
  clear hd
  obtain ⟨_, _, _, _, _, _, _, _, _, _, _, _, _, _, _⟩ := h
  constructor <;> grind [Owner]

/-- A directory that nobody counts on is freed. -/
theorem free (h : s.PageInv) {d : Page} (hlive : d ∈ s.live) (hstack : ∀ q, (s.proc q).kstack ≠ some d)
    (howner : ∀ q, s.Owner q → (s.proc q).pgdir ≠ some d) : (s.freeDir p d).PageInv := by
  have husers : s.dirUsers d p = [] := by
    refine List.filter_eq_nil_iff.mpr fun q _ => ?_
    have hq := howner q
    unfold Owner at hq
    simp only [decide_eq_true_eq]
    tauto
  obtain ⟨h₁, h₂, h₃, h₄, h₅, h₆, h₇, h₈, h₉, h₁₀, h₁₁, h₁₂, h₁₃, h₁₄, h₁₅⟩ := h
  refine ⟨h₁, h₂, h₃, fun q k hk => ?_, h₅, h₆, fun q hq => ?_, h₈, h₉, h₁₀, h₁₁, h₁₂, h₁₃, h₁₄, ?_⟩
  · refine Finset.mem_erase.mpr ⟨?_, h₄ q k hk⟩
    rintro rfl
    exact hstack q hk
  · obtain ⟨d', hd', hl⟩ := h₇ q hq
    refine ⟨d', hd', Finset.mem_erase.mpr ⟨?_, hl⟩⟩
    rintro rfl
    exact howner q hq hd'
  · intro e he
    rcases List.mem_cons.mp he with rfl | he
    · exact ⟨decide_eq_true hlive, husers⟩
    · exact h₁₅ e he

/-- A new process has pages that nobody else has. -/
theorem fork (h : s.PageInv) {k d : Page} {f : Files} (hp : s.freeSlot = some p) (hk : k ∉ s.live) (hd : d ∉ s.live)
    (hkd : k ≠ d) (hnext : (s.forked c p k d f).nextpid = s.nextpid + 1) : (s.forked c p k d f).PageInv := by
  have hunused : ¬ s.Used p := fun hu => hu (s.freeSlot_unused hp)
  have hother : ∀ q, q ≠ p → (s.forked c p k d f).proc q = s.proc q := fun q hq => forked_proc_ne hq
  obtain ⟨hstate, hpid, hdir, hstack, -, hthread, hmain, -, -⟩ := @forked_born s c p k d f
  have hlive := @forked_live s c p k d f
  have hfree := (@claims_forked s c p k d f).freevms
  generalize s.forked c p k d f = t at *
  have hsched : ∀ q, q ≠ p → (t.Schedulable q ↔ s.Schedulable q) := fun q hq => by
    unfold Schedulable
    rw [hother q hq]
  have hused : ∀ q, q ≠ p → (t.Used q ↔ s.Used q) := fun q hq => by
    unfold Used
    rw [hother q hq]
  have hpu : t.Used p ∧ t.Schedulable p := by
    unfold Used Schedulable
    rw [hstate]
    decide
  have hsu := s.used_of_schedulable
  have hzu := s.used_of_zombie
  have hsz := t.not_zombie_of_schedulable
  obtain ⟨_, _, _, _, _, _, _, _, _, _, _, _, _, _, _⟩ := h
  constructor <;> grind [Owner]

/-- A new thread shares the directory of its creator, which is no thread itself. -/
theorem create (h : s.PageInv) {k : Page} {pass : ℚ} {f : Files} {usz sz : Nat} (hc : s.Schedulable c)
    (hnot : (s.proc c).isThread = false) (hp : s.freeSlot = some p) (hk : k ∉ s.live)
    (hnext : s.nextpid < ((s.threaded c p k pass f).threadUp p usz sz).nextpid) :
    ((s.threaded c p k pass f).threadUp p usz sz).PageInv := by
  have hunused : ¬ s.Used p := fun hu => hu (s.freeSlot_unused hp)
  have hcp : c ≠ p := ne_freeSlot hc.used hp
  have hother : ∀ q, q ≠ p → (s.proc q).Like (((s.threaded c p k pass f).threadUp p usz sz).proc q) :=
    fun q hq => threadUp_like hq
  obtain ⟨hstate, hpid, hdir, hstack, -, hthread, hmain, hparent, -⟩ := @threadUp_born s c p k pass f usz sz hcp
  have hlive : ((s.threaded c p k pass f).threadUp p usz sz).live = insert k s.live := @threaded_live s c p k pass f
  have hfree := (@claims_threadUp s c p k pass f usz sz).freevms
  generalize (s.threaded c p k pass f).threadUp p usz sz = t at *
  have hsched : ∀ q, q ≠ p → (t.Schedulable q ↔ s.Schedulable q) := fun q hq => (hother q hq).state.schedulable
  have hused : ∀ q, q ≠ p → (t.Used q ↔ s.Used q) := fun q hq => (hother q hq).state.used
  have hzombie : ∀ q, q ≠ p → ((t.proc q).state = .zombie ↔ (s.proc q).state = .zombie) := fun q hq =>
    (hother q hq).state.zombie
  have hsame : ∀ q, q ≠ p → (t.proc q).pid = (s.proc q).pid ∧ (t.proc q).pgdir = (s.proc q).pgdir ∧
      (t.proc q).kstack = (s.proc q).kstack ∧ (t.proc q).isThread = (s.proc q).isThread ∧
      (t.proc q).isMainThread = (s.proc q).isMainThread ∧ (t.proc q).parent = (s.proc q).parent := fun q hq =>
    have hl := hother q hq
    ⟨hl.pid, hl.pgdir, hl.kstack, hl.isThread, hl.isMainThread, hl.parent⟩
  have hpu : t.Used p ∧ t.Schedulable p := by
    unfold Used Schedulable
    rw [hstate]
    decide
  have hsu := s.used_of_schedulable
  have hzu := s.used_of_zombie
  have hsz := t.not_zombie_of_schedulable
  clear hother
  obtain ⟨_, _, _, _, _, _, _, _, _, _, _, _, _, _, _⟩ := h
  constructor <;> grind [Owner]

/-- Main threads that become zombies with the whole process of `c` are not needed by
    other processes. -/
theorem main_gone (h : s.PageInv) (hc : s.Schedulable c) (hpid : (s.proc p).pid = (s.proc c).pid)
    (hmain : (s.proc p).isMainThread = true) : s.Used p ∧ ∀ q, s.Schedulable q → (s.proc q).pid ≠ (s.proc c).pid →
      (s.proc p).pgdir ≠ (s.proc q).pgdir := by
  have hused : s.Used p := by
    by_contra hu
    exact h.main_unused p c hu hmain hc hpid
  refine ⟨hused, fun q hq hne hd => ?_⟩
  rcases h.settled p hused with hp | hp
  · exact hne ((h.same_pid p q hp hq hd).symm.trans hpid)
  · exact h.main_zombie p q hp hmain hq hd

theorem exit (h : s.PageInv) (hc : s.Schedulable c) (hleft : s.Left t c fun q => (s.proc q).pid = (s.proc c).pid) :
    t.PageInv := by
  refine h.retire hleft.retires (fun p hp hm => h.main_gone hc hp hm) fun p q hp hm hq hqz hne hd => ?_
  obtain ⟨-, hparent⟩ := (h.main_of p q hp hm hq hd).resolve_left hne
  have hpc : p ≠ c := by
    rintro rfl
    exact hqz (h.same_pid q p hq hc hd.symm)
  obtain ⟨st, hq, -⟩ := hleft.proc q
  rw [hq, Proc.moved_parent, Kernel.heir, hparent]
  exact if_neg fun h => hpc (Option.some.inj h)

theorem threadExit (h : s.PageInv) (hc : s.Schedulable c) (hleft : s.Left t c (· = c))
    (hlast : (s.proc c).isMainThread = true → ∀ q, q ≠ c → s.Schedulable q → (s.proc q).pgdir ≠ (s.proc c).pgdir) :
    t.PageInv := by
  refine h.retire hleft.retires (fun p hp hm => ?_) fun p q hp hm hq hqz hne hd => ?_
  · subst hp
    exact ⟨hc.used, fun q hq hqz => (hlast hm q hqz hq).symm⟩
  · obtain ⟨-, hparent⟩ := (h.main_of p q hp hm hq hd).resolve_left hne
    have hpc : p ≠ c := by
      rintro rfl
      exact hlast hm q hne hq hd.symm
    obtain ⟨st, hq, -⟩ := hleft.proc q
    rw [hq, Proc.moved_parent, Kernel.heir, hparent]
    exact if_neg fun h => hpc (Option.some.inj h)

/-- `exec` until the old directory is freed. -/
theorem zombify (h : s.PageInv) {u : Kernel} {dir : Page} (hc : s.Schedulable c) (hr : s.Reimages t c dir)
    (hfresh : dir ∉ s.live) (hz : t.Zombified u c) : u.PageInv := by
  have ht := h.image hr hc hfresh
  have hct : t.Schedulable c := (hr.schedulable c).mpr hc
  refine ht.retire hz.retires (fun p hp hm => ?_) fun p q _ _ _ hqz _ _ => ?_
  · refine ⟨(ht.main_gone hct hp.1 hm).1, fun q hq hqz => ?_⟩
    by_cases hqc : q = c
    · have hpo : s.Owner p := .inr ⟨(hr.used p).mp (ht.main_gone hct hp.1 hm).1, (hr.ne p hp.2).2.2.2.2.2 hm⟩
      obtain ⟨d, hd, hl⟩ := h.dir_live p hpo
      rw [hqc, hr.pgdir, (hr.ne p hp.2).1, hd]
      rintro h
      exact hfresh (Option.some.inj h ▸ hl)
    · exact (ht.main_gone hct hp.1 hm).2 q hq fun hpid => hqz ⟨hpid, hqc⟩
  · rw [hz.other q hqz]

/-- `exec`: when the old directory is freed, all its users are zombies, and no main
    thread has it any more. -/
theorem exec (h : s.PageInv) {u : Kernel} {dir old : Page} (hc : s.Schedulable c) (hold : (s.proc c).pgdir = some old)
    (hr : s.Reimages t c dir) (hfresh : dir ∉ s.live) (hz : t.Zombified u c)
    (hlast : ∀ q, q ≠ c → s.Used q → (t.proc q).isMainThread = true → (s.proc q).pgdir ≠ some old) :
    (u.freeDir c old).PageInv := by
  have ht := h.image hr hc hfresh
  have hct : t.Schedulable c := (hr.schedulable c).mpr hc
  have hu := h.zombify hc hr hfresh hz
  have hlive : old ∈ s.live := by
    obtain ⟨d, hd, hl⟩ := h.dir_live c (.inl hc)
    rw [hold] at hd
    exact Option.some.inj hd ▸ hl
  have hdir : ∀ q, q ≠ c → (u.proc q).pgdir = (s.proc q).pgdir := fun q hq =>
    (hz.retires.same q).pgdir.trans (hr.ne q hq).1
  refine hu.free ?_ (fun q => ?_) fun q hq => ?_
  · rw [hz.retires.rest.live, hr.live]
    exact Finset.mem_insert_of_mem hlive
  · rw [(hz.retires.same q).kstack, hr.kstack_eq]
    exact h.dir_stack q c old (.inl hc) hold
  · by_cases hqc : q = c
    · rw [hqc, (hz.retires.same c).pgdir, hr.pgdir]
      intro h
      exact hfresh (Option.some.inj h ▸ hlive)
    · rw [hdir q hqc]
      rcases hq with hq | ⟨hq, hm⟩
      · -- Users of the directory have the same pid.
        obtain ⟨hq, hqz⟩ := (hz.retires.schedulable q).mp hq
        intro hd
        refine hqz ⟨?_, hqc⟩
        rw [hr.pid_eq, hr.pid_eq]
        exact h.same_pid q c ((hr.schedulable q).mp hq) hc (hd.trans hold.symm)
      · rw [(hz.retires.same q).isMainThread] at hm
        refine hlast q hqc ?_ hm
        rcases (hz.retires.used q).mp hq with hq | hq
        · exact (hr.used q).mp hq
        · exact (hr.used q).mp (ht.main_gone hct hq.1 hm).1

theorem buried_live {k : Page} : (s.buried p k).live = s.live.erase k := by
  unfold buried reaped
  rw [refunded_eq]
  rfl

theorem bury_drop (h : s.PageInv) {k : Page} (hk : (s.proc p).kstack = some k) : (s.buried p k).PageInv := by
  have hnext : (s.buried p k).nextpid = s.nextpid := by
    unfold buried reaped
    rw [refunded_eq]
    rfl
  have hfree : (s.buried p k).freevms = s.freevms := by
    unfold buried reaped
    rw [refunded_eq]
    rfl
  refine h.drop drops_buried hnext.ge ?_ (fun _ q hq => ?_) (fun a ha hne => ?_) hfree
  · rw [buried_proc_same, hnext]
    exact h.nextpid_pos
  · rw [buried_proc_same]
    exact (h.pid_pos q hq).ne
  · rw [buried_live]
    refine Finset.mem_erase.mpr ⟨?_, ha⟩
    rintro rfl
    exact hne hk

/-- `wait`: the directory goes with the main thread. -/
theorem bury (h : s.PageInv) {k d : Page} (hz : (s.proc p).state = .zombie) (hm : (s.proc p).isMainThread = true)
    (hk : (s.proc p).kstack = some k) (hd : (s.proc p).pgdir = some d) : ((s.buried p k).freeDir p d).PageInv := by
  have howner : s.Owner p := .inr ⟨s.used_of_zombie p hz, hm⟩
  have hdrop := h.bury_drop hk
  have hother : ∀ q, q ≠ p → (s.buried p k).proc q = s.proc q := fun q hq => buried_proc_ne hq
  refine hdrop.free ?_ (fun q => ?_) fun q hq => ?_
  · obtain ⟨d', hd', hl⟩ := h.dir_live p howner
    rw [hd] at hd'
    obtain rfl := Option.some.inj hd'
    rw [buried_live]
    refine Finset.mem_erase.mpr ⟨?_, hl⟩
    rintro rfl
    exact h.dir_stack p p d howner hd hk
  · by_cases hqp : q = p
    · rw [hqp, drops_buried.kstack]
      exact fun h => nomatch h
    · rw [hother q hqp]
      exact h.dir_stack q p d howner hd
  · have hqp : q ≠ p := by
      rintro rfl
      exact drops_buried.unused (hq.elim (Kernel.used_of_schedulable _ q) And.left)
    rw [hother q hqp]
    unfold Owner Schedulable Used at hq
    rw [hother q hqp] at hq
    intro hqd
    rcases hq with hq | ⟨hq, hqm⟩
    · exact h.main_zombie p q hz hm hq (hd.trans hqd.symm)
    · exact hqp (h.main_inj q p hq hqm (s.used_of_zombie p hz) hm (hqd.trans hd.symm))

end Kernel.PageInv

/-! ## Runs -/

/-- Nobody else can be scheduled with the page directory of `c`. -/
def Kernel.AloneInDir (s : Kernel) (c : Slot) : Prop :=
  ∀ q, q ≠ c → s.Schedulable q → (s.proc q).pgdir ≠ (s.proc c).pgdir

instance (s : Kernel) (c : Slot) : Decidable (s.AloneInDir c) := inferInstanceAs (Decidable (∀ _, _))

/-- A main thread calls `thread_exit` only when nobody else can be scheduled with its
    page directory; `sbrk` takes away no more than there is; pids do not run out. -/
def DirOk (s : Kernel) (c : Slot) : SysCall → Prop
  | .fork _ _ | .threadCreate _ _ => s.nextpid < 2 ^ 31 - 1
  | .threadExit _ => (s.proc c).isMainThread = true → s.AloneInDir c
  | .sbrk n _ => 0 ≤ (s.proc c).sz + n
  | _ => True

instance (s : Kernel) (c : Slot) : (call : SysCall) → Decidable (DirOk s c call)
  | .fork _ _ | .threadCreate _ _ => inferInstanceAs (Decidable (s.nextpid < 2 ^ 31 - 1))
  | .threadExit _ => inferInstanceAs (Decidable ((s.proc c).isMainThread = true → s.AloneInDir c))
  | .sbrk n _ => inferInstanceAs (Decidable (0 ≤ ((s.proc c).sz : Int) + n))
  | .exit | .exec _ | .wait | .threadJoin _ | .kill _ | .setCpuShare _ | .file _ => .isTrue trivial

theorem Kernel.PageInv.spoil {s : Kernel} {p : Slot} {dir : Option Page} (h : s.PageInv) (hlt : s.nextpid < 2 ^ 31 - 1) :
    (s.spoiled p dir).PageInv := by
  have hpid : ((s.spoiled p dir).proc p).pid = s.nextpid := by
    unfold spoiled
    rw [upd_proc_same, claimSlot_proc, if_pos rfl]
    rfl
  have hnext := (@claims_spoiled s p dir).nextpid_eq h.nextpid_pos hlt
  refine h.drop drops_spoiled (by omega) (by omega) (fun _ q _ => ?_) (fun _ ha _ => ha) claims_spoiled.freevms
  rw [hpid]
  exact (h.pid_lt q).ne'

theorem keeps_pageInv : Keeps DirOk Kernel.PageInv where
  like h hl _ := h.like hl
  setCpuShare h _ _ _ := wp_setCpuShare_like.mono (fun _ _ hl => h.like hl) fun _ _ => trivial
  forkSpoiled h _ _ hok _ := h.spoil hok
  createSpoiled h _ _ _ hok := h.spoil hok
  forked h hc hp hk hd hkd hok := h.fork hp hk hd hkd (Kernel.claims_forked.nextpid_eq h.nextpid_pos hok)
  threadUp h hc hnot hp hk hok := by
    refine h.create (Kernel.schedulable_of_running hc) hnot hp hk ?_
    rw [Kernel.claims_threadUp.nextpid_eq h.nextpid_pos hok]
    omega
  threadDown {s c p k junk pass f} h hc _ hp hk _ hok := by
    have hnext := (@Kernel.claims_threadDown s c p k pass f).nextpid_eq h.nextpid_pos hok
    obtain ⟨hpid, hmain⟩ := @Kernel.threadDown_proc_same s c p k pass f
      (Kernel.ne_freeSlot (Kernel.used_of_running hc) hp)
    refine h.drop Kernel.drops_threadDown (by omega) ?_ (fun hm => ?_) (fun a ha _ => ?_)
      Kernel.claims_threadDown.freevms
    · rw [hpid, hnext]
      have := h.pid_lt c
      omega
    · rw [hmain] at hm
      cases hm
    · have hlive : ((s.threaded c p k pass f).threadDown p).live = insert k s.live :=
        @Kernel.threaded_live s c p k pass f
      rw [hlive]
      exact Finset.mem_insert_of_mem ha
  exited h hc _ _ ht := h.exit (Kernel.schedulable_of_running hc) ht
  threadExited {s t c v} h hc _ hok ht := by
    have hlike : s.Like (s.upd c fun x => { x with retval := v }) :=
      .of_upd ⟨.inl rfl, rfl, rfl, rfl, rfl, rfl, rfl, rfl, rfl⟩
    refine (h.like hlike).threadExit ((hlike.schedulable c).mpr (Kernel.schedulable_of_running hc)) ht fun hm q hq hs => ?_
    rw [(hlike.proc q).pgdir, (hlike.proc c).pgdir]
    exact hok ((hlike.proc c).isMainThread ▸ hm) q hq ((hlike.schedulable q).mp hs)
  imaged h hc hfit _ _ := h.image Kernel.reimages_imaged (Kernel.schedulable_of_running hc) hfit.1
  execed {s t c dir old usz} h hc hnot hold hfit _ hz := by
    have hc := Kernel.schedulable_of_running hc
    refine h.exec hc hold Kernel.reimages_execed hfit.1 hz fun q hq hu hm hd => ?_
    rw [Kernel.execed_proc_ne hq] at hm
    rcases h.main_of q c hu hm hc (hd.trans hold.symm) with hqc | ⟨hthread, -⟩
    · exact hq hqc.symm
    · rw [hnot] at hthread
      cases hthread
  promoted {s t c m dir old usz} h hc _ hold hparent hfit _ hz := by
    have hc := Kernel.schedulable_of_running hc
    refine h.exec hc hold Kernel.reimages_promoted hfit.1 hz fun q hq hu hm hd => ?_
    -- Only the main thread of `c` has the directory, and it is deposed.
    have hqm : q ≠ m := by
      rintro rfl
      rw [Kernel.promoted_proc_main hq] at hm
      cases hm
    rw [Kernel.promoted_proc_ne hq hqm] at hm
    rcases h.main_of q c hu hm hc (hd.trans hold.symm) with hqc | ⟨-, hq'⟩
    · exact hq hqc.symm
    · rw [hparent] at hq'
      exact hqm (Option.some.inj hq').symm
  reaped {s p k} h hz _ hk := by
    refine h.drop Kernel.drops_reaped le_rfl ?_ (fun _ q hq => ?_) (fun a ha hne => ?_) rfl
    · rw [Kernel.reaped_proc_same]
      exact h.nextpid_pos
    · rw [Kernel.reaped_proc_same]
      exact (h.pid_pos q hq).ne
    · refine Finset.mem_erase.mpr ⟨?_, ha⟩
      rintro rfl
      exact hne hk
  buried h hz hm hk hd := h.bury hz hm hk hd
  joined {s c p k thread t} h hc _ _ hk _ := by
    obtain ⟨j, hj⟩ := @Kernel.joined_proc_same s c p k
    have hrest : (s.joined c p k).nextpid = s.nextpid ∧ (s.joined c p k).live = s.live.erase k ∧
        (s.joined c p k).freevms = s.freevms := by
      unfold Kernel.joined Kernel.reaped
      rw [Kernel.refunded_eq]
      exact ⟨rfl, rfl, rfl⟩
    refine h.drop Kernel.drops_joined hrest.1.ge ?_ (fun _ q hq => ?_) (fun a ha hne => ?_) hrest.2.2
    · rw [hj, hrest.1]
      exact h.nextpid_pos
    · rw [hj]
      exact (h.pid_pos q hq).ne
    · rw [hrest.2.1]
      refine Finset.mem_erase.mpr ⟨?_, ha⟩
      rintro rfl
      exact hne hk

theorem boot_pageInv {k d : Page} {root : InodePtr} (hkd : k ≠ d) : (boot k d root).PageInv := by
  have hother : ∀ q, q ≠ 0 → (boot k d root).proc q = .zero := fun q hq => boot_proc_ne hq
  have hstate : ((boot k d root).proc 0).state = .runnable := rfl
  have hpid : ((boot k d root).proc 0).pid = 1 := rfl
  have hstack : ((boot k d root).proc 0).kstack = some k := rfl
  have hdir : ((boot k d root).proc 0).pgdir = some d := rfl
  have hnext : (boot k d root).nextpid = 2 := rfl
  have hlive : (boot k d root).live = {d, k} := rfl
  have hfree : (boot k d root).freevms = [] := rfl
  have hused : ∀ q, (boot k d root).Used q → q = 0 := fun q hq => eq_zero_of_boot_used hq
  have hmain : ∀ q, ((boot k d root).proc q).isMainThread = true → q = 0 := by
    intro q hq
    by_contra hne
    rw [hother q hne] at hq
    cases hq
  have hzero : ∀ q, q ≠ 0 → ((boot k d root).proc q).pid = 0 ∧ ((boot k d root).proc q).kstack = none := by
    intro q hq
    rw [hother q hq]
    exact ⟨rfl, rfl⟩
  generalize boot k d root = s at *
  have h0 : s.Schedulable 0 := .inr (.inl hstate)
  have hsu := s.used_of_schedulable
  have hsz := s.not_zombie_of_schedulable
  clear hother
  constructor <;> grind [Kernel.Owner]

/-- In every run in which no main thread calls `thread_exit` while others use its page
    directory and `sbrk` takes away no more than there is, `freevm` is called only for allocated directories that nobody else can
    be scheduled with, and who can be scheduled has an allocated directory. -/
theorem freevm_only_unused {k d : Page} {root : InodePtr} {s : Kernel} (hkd : k ≠ d)
    (h : Run DirOk (boot k d root) s) :
    (∀ e ∈ s.freevms, e.live = true ∧ e.users = []) ∧
      ∀ q, s.Schedulable q → ∃ dir, (s.proc q).pgdir = some dir ∧ dir ∈ s.live := by
  have hinv := keeps_pageInv.run h (boot_pageInv hkd)
  exact ⟨hinv.freed, fun q hq => hinv.dir_live q (.inl hq)⟩

/-- A process loads a program and creates a thread; both exit, and `init` reaps them. -/
def threadProgram : List (Slot × SysCall) :=
  [(0, .fork (some 2) (some 3)), (1, .exec (.ok 4 8192)), (1, .threadCreate (some 5) 0), (1, .sbrk (-4096) true),
    (2, .threadExit 7), (1, .threadJoin 2), (1, .exit), (0, .wait)]

theorem freevm_only_unused_threadProgram : ∃ s, Run DirOk (boot 0 1 0) s ∧ s.freevms.length = 2 ∧
    (∀ e ∈ s.freevms, e.live = true ∧ e.users = []) ∧
      ∀ q, s.Schedulable q → ∃ dir, (s.proc q).pgdir = some dir ∧ dir ∈ s.live := by
  have hplay : (play DirOk threadProgram (boot 0 1 0)).any (fun s => s.freevms.length = 2) = true := by
    decide +kernel
  obtain ⟨s, hrun, hlen⟩ := Run.exists_of_play hplay
  exact ⟨s, hrun, of_decide_eq_true hlen, freevm_only_unused (by decide) hrun⟩

/-- The main thread exits first, and `init` frees the directory of the other thread. -/
def mainFirst : List (Slot × SysCall) :=
  [(0, .fork (some 2) (some 3)), (1, .exec (.ok 4 8192)), (1, .threadCreate (some 5) 0), (1, .threadExit 0),
    (0, .wait)]

theorem freevm_while_used : ∃ s, Run (fun _ _ _ => True) (boot 0 1 0) s ∧
    (∃ e ∈ s.freevms, e.dir = 4 ∧ e.users = [2]) ∧ s.Schedulable 2 ∧ (s.proc 2).pgdir = some 4 ∧ 4 ∉ s.live := by
  have hplay : (play (fun _ _ _ => True) mainFirst (boot 0 1 0)).any (fun s =>
      (∃ e ∈ s.freevms, e.dir = 4 ∧ e.users = [2]) ∧ s.Schedulable 2 ∧ (s.proc 2).pgdir = some 4 ∧ 4 ∉ s.live) =
      true := by
    decide +kernel
  obtain ⟨s, hrun, hbad⟩ := Run.exists_of_play hplay
  exact ⟨s, hrun, of_decide_eq_true hbad⟩

end Xv6
