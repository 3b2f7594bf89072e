-- SUMMARY: Whom the parent pointers of processes and threads point to.
import Xv6.Process.Lineage

/-! # Parents

A group of threads ends with one call, but each call passes only the children of one
slot on to `init`; and `exec` of a thread moves the other threads up to the parent of
their parent while it goes over the table. The parent pointers stay right as long as
no other thread of a group that ends has children outside of it, and the group of a
thread that calls `exec` is a grandchild of `init`.
-/

namespace Xv6

/-! ## The condition -/

/-- No other thread of `c` has a child outside of the group. -/
def Kernel.NoOthersChildren (s : Kernel) (c : Slot) : Prop :=
  ∀ q, s.Used q → ∀ r ∈ (s.proc q).parent, r ≠ c → s.initproc ≠ some r → (s.proc r).pid = (s.proc c).pid →
    (s.proc q).pid = (s.proc c).pid

/-- If `c` has other threads, it is their parent, and `init` is the parent of `c`. -/
def Kernel.InitThreads (s : Kernel) (c : Slot) : Prop :=
  ∀ q, q ≠ c → (s.proc q).pid = (s.proc c).pid → (s.proc q).parent = some c ∧ (s.proc c).parent = s.initproc

/-- The parent of `c` is its main thread, and that of all other threads of the group. `init` is
    the parent of the parent of the main thread. -/
def Kernel.InitGrandchild (s : Kernel) (c : Slot) : Prop :=
  ∃ m ∈ (s.proc c).parent, (s.proc m).pid = (s.proc c).pid ∧
    (∃ r ∈ (s.proc m).parent, (s.proc r).parent = s.initproc) ∧
    ∀ q, q ≠ c → q ≠ m → (s.proc q).pid = (s.proc c).pid → (s.proc q).parent = some m

/-- The slot at which `thread_join` of `c` looks is the thread that was asked for. -/
def Kernel.JoinsOwn (s : Kernel) (c : Slot) (thread : Int) : Prop :=
  ∀ r ∈ s.joinTarget c thread, (s.proc r.1).parent = some c ∧ (s.proc r.1).pid = (s.proc c).pid ∧
    ((s.proc r.1).tid : Int) = r.2

/-- A group ends only if no thread of it but the caller has children outside; `exec` moves
    threads up only to `init` or, where a thread calls it, from a group that is a grandchild
    of `init`; `thread_join` finds its thread; pids do not run out. -/
def ParentOk (s : Kernel) (c : Slot) : SysCall → Prop
  | .fork _ _ | .threadCreate _ _ => s.nextpid < 2 ^ 31 - 1
  | .exit => s.NoOthersChildren c
  | .exec (.ok _ _) => s.NoOthersChildren c ∧
    if (s.proc c).isThread then s.InitGrandchild c else s.InitThreads c
  | .threadJoin thread => s.JoinsOwn c thread
  | _ => True

instance (s : Kernel) (c : Slot) : Decidable (s.NoOthersChildren c) := inferInstanceAs (Decidable (∀ _, _))

instance (s : Kernel) (c : Slot) : Decidable (s.InitThreads c) := inferInstanceAs (Decidable (∀ _, _))

instance (s : Kernel) (c : Slot) : Decidable (s.InitGrandchild c) := inferInstanceAs (Decidable (∃ _ ∈ _, _))

instance (s : Kernel) (c : Slot) (thread : Int) : Decidable (s.JoinsOwn c thread) :=
  inferInstanceAs (Decidable (∀ _ ∈ _, _))

instance (s : Kernel) (c : Slot) : (call : SysCall) → Decidable (ParentOk s c call)
  | .fork _ _ | .threadCreate _ _ => inferInstanceAs (Decidable (s.nextpid < 2 ^ 31 - 1))
  | .exit => inferInstanceAs (Decidable (s.NoOthersChildren c))
  | .exec (.ok _ _) => inferInstanceAs (Decidable (s.NoOthersChildren c ∧
      if (s.proc c).isThread then s.InitGrandchild c else s.InitThreads c))
  | .threadJoin thread => inferInstanceAs (Decidable (s.JoinsOwn c thread))
  | .exec .bad | .exec (.short _ _ _) | .threadExit _ | .wait | .kill _ | .sbrk _ _ | .setCpuShare _ | .file _ =>
    .isTrue trivial

/-! ## Exec -/

namespace Kernel.Kin

variable {s t : Kernel} {g : Lineage} {c m r : Slot} {dir : Page} {usz : Nat}

/-- A child of another thread of `c` is a thread of `c`. -/
theorem pid_of_child (h : s.Kin g) (hok : s.NoOthersChildren c) {q r : Slot} (hq : s.Member q)
    (hne : s.initproc ≠ some q) (hr : (s.proc q).parent = some r) (hrc : r ≠ c) (hinit : s.initproc ≠ some r)
    (hpid : (s.proc r).pid = (s.proc c).pid) : (s.proc q).pid = (s.proc c).pid := by
  obtain ⟨r', hr', hdesc⟩ := h.parent q hq hne
  obtain rfl : r' = r := Option.some.inj (hr'.symm.trans hr)
  by_cases hu : s.Used q
  · exact hok q hu r' hr hrc hinit hpid
  · exact ((hdesc.stale hu).resolve_left hinit).trans hpid

/-- A main thread has made the other threads zombies. -/
theorem shed (h : s.Kin g) (hc : s.Schedulable c) (ht : (s.proc c).isThread = false) (hok : s.NoOthersChildren c)
    (hthreads : s.InitThreads c) (hz : s.Zombified t c) : t.Kin g := by
  have hcu := s.used_of_schedulable c hc
  have hmember : ∀ q, (s.proc q).pid = (s.proc c).pid → s.Member q := fun q hq => ⟨c, hcu, hq.symm⟩
  have hcmain := h.main c hc ht
  have hsame : ∀ q, ¬ ((s.proc q).pid = (s.proc c).pid ∧ q ≠ c) → t.proc q = s.proc q := hz.other
  have hup : ∀ q, (s.proc q).pid = (s.proc c).pid → q ≠ c → (t.proc q).parent = s.initproc := by
    intro q hq hqc
    obtain ⟨hparent, hinit⟩ := hthreads q hqc hq
    have hmain : (s.proc q).isMainThread = false := Bool.eq_false_iff.mpr fun hm =>
      hqc (h.one_main q c (hmember q hq) hcu.member hm hcmain hq)
    obtain ⟨r, hr, hcases⟩ := hz.parent q hq hqc List.not_mem_nil hmain
    obtain rfl : c = r := Option.some.inj (hparent.symm.trans hr)
    rw [hsame c fun h => h.2 rfl] at hcases
    rcases hcases with hq' | ⟨-, hq'⟩ <;> exact hq'.trans hinit
  obtain ⟨i, hi, hiu, hnone, himain⟩ := h.init
  refine of_retires h.toGroups hz.retires (fun q hq => hmember q hq.1) (fun q hq _ => h.main q hq) (fun j hj => ?_)
    fun q hq hne => ?_
  · obtain rfl : i = j := Option.some.inj (hi.symm.trans hj)
    by_cases hic : (s.proc i).pid = (s.proc c).pid ∧ i ≠ c
    · have := (hthreads i hic.2 hic.1).1
      rw [hnone] at this
      cases this
    · rw [hsame i hic]
  · by_cases hqc : (s.proc q).pid = (s.proc c).pid ∧ q ≠ c
    · have hdesc := h.descends_init hq hne hi
      exact ⟨i, (hup q hqc.1 hqc.2).trans hi, hiu, .inl hi, hdesc.thread, fun hnot => absurd hi hnot, fun _ _ => .inl hi⟩
    · obtain ⟨r, hr, hdesc⟩ := h.parent q hq hne
      refine ⟨r, ?_, hdesc.used, hdesc.origin, hdesc.thread, fun hnot hzr => ?_, fun hu _ => hdesc.stale hu⟩
      · rw [hsame q hqc, hr]
      · rcases hzr with hzr | ⟨hpid, hrc⟩
        · exact (hdesc.zombie hnot hzr).imp_left .inl
        · -- Then `q` is in the group: it is `c`, whose parent is `init`.
          have hqpid := h.pid_of_child hok hq hne hr hrc hnot hpid
          obtain rfl : q = c := not_not.mp fun hqc' => hqc ⟨hqpid, hqc'⟩
          exact absurd ((hthreads r hrc hpid).2.symm.trans hr) hnot

end Kernel.Kin

namespace Kernel

variable {s : Kernel} {c m q : Slot} {dir : Page} {usz : Nat}

theorem promoted_pid (hmc : m ≠ c) : ((s.promoted c m dir usz).proc q).pid = (s.proc q).pid := by
  by_cases hqc : q = c
  · obtain ⟨b, hb⟩ := @promoted_proc_same s c m dir usz
    rw [hqc, hb]
    rfl
  · by_cases hqm : q = m
    · rw [hqm, promoted_proc_main hmc]
      rfl
    · rw [promoted_proc_ne hqc hqm]

theorem promoted_state (hmc : m ≠ c) : ((s.promoted c m dir usz).proc q).state = (s.proc q).state := by
  by_cases hqc : q = c
  · obtain ⟨b, hb⟩ := @promoted_proc_same s c m dir usz
    rw [hqc, hb]
    rfl
  · by_cases hqm : q = m
    · rw [hqm, promoted_proc_main hmc]
      rfl
    · rw [promoted_proc_ne hqc hqm]

theorem promoted_parent (hmc : m ≠ c) (hqc : q ≠ c) :
    ((s.promoted c m dir usz).proc q).parent = (s.proc q).parent := by
  by_cases hqm : q = m
  · rw [hqm, promoted_proc_main hmc]
    rfl
  · rw [promoted_proc_ne hqc hqm]

theorem promoted_used (hmc : m ≠ c) : (s.promoted c m dir usz).Used q ↔ s.Used q := by
  unfold Used
  rw [promoted_state hmc]

theorem promoted_member (hmc : m ≠ c) : (s.promoted c m dir usz).Member q ↔ s.Member q := by
  unfold Member
  simp only [promoted_used hmc, promoted_pid hmc]

end Kernel

namespace Kernel.Kin

variable {s t : Kernel} {g : Lineage} {c m r : Slot} {dir : Page} {usz : Nat}

/-- A thread of `m` that calls `exec`. -/
structure Heir (s : Kernel) (c m r : Slot) : Prop where
  ne : m ≠ c
  pid : (s.proc m).pid = (s.proc c).pid
  main : (s.proc m).isMainThread = true
  thread : (s.proc c).isMainThread = false
  member : s.Member m
  used : s.Used r
  parent_pid : (s.proc r).pid ≠ (s.proc c).pid
  alive : (s.proc r).state ≠ .zombie
  not_init : ∀ i, s.initproc = some i → (s.proc i).pid ≠ (s.proc c).pid

theorem heir (h : s.Kin g) (hc : s.Schedulable c) (hm : (s.proc c).parent = some m)
    (hpid : (s.proc m).pid = (s.proc c).pid) (hr : (s.proc m).parent = some r)
    (hgrand : (s.proc r).parent = s.initproc) : Heir s c m r := by
  obtain ⟨i, hi, hiu, hnone, himain⟩ := h.init
  have hne : ∀ {q p}, (s.proc q).parent = some p → s.initproc ≠ some q := by
    intro q p hp hq
    obtain rfl : i = q := Option.some.inj (hi.symm.trans hq)
    rw [hnone] at hp
    cases hp
  have hcu := s.used_of_schedulable c hc
  have hmu : s.Member m := ⟨c, hcu, hpid.symm⟩
  obtain ⟨m', hm', hcm⟩ := h.parent c hcu.member (hne hm)
  obtain rfl : m' = m := Option.some.inj (hm'.symm.trans hm)
  obtain ⟨r', hr', hmr⟩ := h.parent m' hmu (hne hr)
  obtain rfl : r' = r := Option.some.inj (hr'.symm.trans hr)
  obtain ⟨hmain, hthread⟩ := hcm.thread hpid.symm
  refine ⟨?_, hpid, hmain, hthread, hmu, hmr.used, fun hrc => ?_, fun hz => ?_, fun j hj hjc => ?_⟩
  · rintro rfl
    rw [hthread] at hmain
    cases hmain
  · have := (hmr.thread (hpid.trans hrc.symm)).2
    rw [hmain] at this
    cases this
  · have hzm := (hmr.zombie (hne (hgrand.trans hi)) hz).1
    exact hc.not_zombie (hcm.zombie (hne hr) hzm).1
  · obtain rfl : i = j := Option.some.inj (hi.symm.trans hj)
    obtain rfl := h.one_main m' i hmu hiu.member hmain himain (hpid.trans hjc.symm)
    exact hne hr hi

theorem groups_promoted (h : s.Kin g) (hh : Heir s c m r) (hinit : s.initproc ≠ some c) :
    (s.promoted c m dir usz).Groups := by
  have hmc := hh.ne
  refine ⟨h.nextpid_pos, fun q => ?_, fun q hq => ?_, ?_, ?_⟩
  · rw [promoted_pid hmc]
    exact h.pid_lt q
  · rw [promoted_pid hmc]
    exact h.used_pos q ((promoted_used hmc).mp hq)
  · obtain ⟨i, hi, hiu, hnone, himain⟩ := h.init
    have hic : i ≠ c := fun heq => hinit (heq ▸ hi)
    have him : i ≠ m := fun heq => hh.not_init i hi (heq ▸ hh.pid)
    refine ⟨i, hi, (promoted_used hmc).mpr hiu, ?_⟩
    rw [promoted_proc_ne hic him]
    exact ⟨hnone, himain⟩
  · -- The main threads are those from before, with `c` in the place of `m`.
    have hold : ∀ q, q ≠ c → ((s.promoted c m dir usz).proc q).isMainThread = true →
        q ≠ m ∧ (s.proc q).isMainThread = true := by
      intro q hqc hq
      have hqm : q ≠ m := by
        rintro rfl
        rw [promoted_proc_main hmc] at hq
        cases hq
      rw [promoted_proc_ne hqc hqm] at hq
      exact ⟨hqm, hq⟩
    have hnone : ∀ q, q ≠ c → s.Member q → ((s.promoted c m dir usz).proc q).isMainThread = true →
        (s.proc q).pid ≠ (s.proc c).pid := by
      intro q hqc hq hmain hpid
      obtain ⟨hqm, hmain⟩ := hold q hqc hmain
      exact hqm (h.one_main q m hq hh.member hmain hh.main (hpid.trans hh.pid.symm))
    intro a b ha hb ham hbm hab
    rw [promoted_member hmc] at ha hb
    rw [promoted_pid hmc, promoted_pid hmc] at hab
    by_cases hac : a = c
    · subst hac
      by_contra hba
      exact hnone b (Ne.symm hba) hb hbm hab.symm
    · by_cases hbc : b = c
      · exact absurd (hbc ▸ hab) (hnone a hac ha ham)
      · exact h.one_main a b ha hb (hold a hac ham).2 (hold b hbc hbm).2 hab

theorem promoted_other (hmc : m ≠ c) (hz : (s.promoted c m dir usz).Zombified t c) {q : Slot}
    (hq : ¬ ((s.proc q).pid = (s.proc c).pid ∧ q ≠ c)) : t.proc q = (s.promoted c m dir usz).proc q := by
  refine hz.other q ?_
  rwa [promoted_pid hmc, promoted_pid hmc]

/-- Each thread of the group goes to `r` or to `init`, depending on which one of it and `m` comes
    first in the table. -/
theorem moved_up (h : s.Kin g) (hh : Heir s c m r) (hcu : s.Used c) (hr : (s.proc m).parent = some r)
    (hrparent : (s.proc r).parent = s.initproc)
    (hothers : ∀ q, q ≠ c → q ≠ m → (s.proc q).pid = (s.proc c).pid → (s.proc q).parent = some m)
    (hz : (s.promoted c m dir usz).Zombified t c) {q : Slot} (hq : (s.proc q).pid = (s.proc c).pid) :
    (t.proc q).parent = some r ∨ (t.proc q).parent = s.initproc := by
  have hmc := hh.ne
  have hrc : r ≠ c := fun heq => hh.parent_pid (heq ▸ rfl)
  have hrm : r ≠ m := fun heq => hh.parent_pid (heq ▸ hh.pid)
  have hrsame : t.proc r = s.proc r := by
    rw [promoted_other hmc hz fun h => hh.parent_pid h.1, promoted_proc_ne hrc hrm]
  have hthread : ∀ q, (s.proc q).pid = (s.proc c).pid → q ≠ c →
      ((s.promoted c m dir usz).proc q).isMainThread = false := by
    intro q hq hqc
    by_cases hqm : q = m
    · rw [hqm, promoted_proc_main hmc]
      rfl
    · rw [promoted_proc_ne hqc hqm]
      exact Bool.eq_false_iff.mpr fun hmain =>
        hqm (h.one_main q m ⟨c, hcu, hq.symm⟩ hh.member hmain hh.main (hq.trans hh.pid.symm))
  have hup : ∀ q, (s.proc q).pid = (s.proc c).pid → q ≠ c → ∃ x, (s.proc q).parent = some x ∧
      ((t.proc q).parent = ((s.promoted c m dir usz).proc x).parent ∨ (t.proc q).parent = (t.proc x).parent) := by
    intro q hq hqc
    obtain ⟨x, hx, hcases⟩ := hz.parent q (by rwa [promoted_pid hmc, promoted_pid hmc]) hqc List.not_mem_nil
      (hthread q hq hqc)
    rw [promoted_parent hmc hqc] at hx
    exact ⟨x, hx, hcases.imp_right And.right⟩
  have hupm : (t.proc m).parent = s.initproc := by
    obtain ⟨x, hx, hcases⟩ := hup m hh.pid hmc
    obtain rfl : r = x := Option.some.inj (hr.symm.trans hx)
    rw [promoted_parent hmc hrc, hrsame, or_self] at hcases
    exact hcases.trans hrparent
  by_cases hqc : q = c
  · obtain ⟨b, hb⟩ := @promoted_proc_same s c m dir usz
    rw [hqc, promoted_other hmc hz fun h => h.2 rfl, hb]
    exact .inl hr
  · by_cases hqm : q = m
    · exact .inr (hqm ▸ hupm)
    · obtain ⟨x, hx, hcases⟩ := hup q hq hqc
      obtain rfl : m = x := Option.some.inj ((hothers q hqc hqm hq).symm.trans hx)
      rw [promoted_parent hmc hmc, hr, hupm] at hcases
      exact hcases

/-- A thread has taken the place of its main thread, and made the other threads zombies. -/
theorem replace (h : s.Kin g) (hc : s.Schedulable c) (hok : s.NoOthersChildren c) (hgrand : s.InitGrandchild c)
    (hm : (s.proc c).parent = some m) (hz : (s.promoted c m dir usz).Zombified t c) : t.Kin (g.replace s c) := by
  obtain ⟨m', hm', hpid, ⟨r, hr, hrparent⟩, hothers⟩ := hgrand
  obtain rfl : m = m' := Option.some.inj (hm.symm.trans hm')
  have hr : (s.proc m).parent = some r := hr
  have hh := h.heir hc hm hpid hr hrparent
  have hmc := hh.ne
  obtain ⟨i, hi, hiu, hnone, himain⟩ := h.init
  have hcu := s.used_of_schedulable c hc
  have hcinit : s.initproc ≠ some c := fun hci => hh.not_init c hci rfl
  have hformer : ∀ q, (s.proc q).pid = (s.proc c).pid → (g.replace s c).former q = some (r, g.born r) := by
    intro q hq
    rw [Lineage.replace_former, if_pos hq, hm]
    change ((s.proc m).parent).map _ = _
    rw [hr]
    rfl
  refine of_retires (h.groups_promoted hh hcinit) hz.retires (fun q hq => ?_) (fun q hq hnot => ?_) (fun j hj => ?_)
    fun q hq hne => ?_
  · rw [promoted_pid hmc, promoted_pid hmc] at hq
    rw [promoted_member hmc]
    exact ⟨c, hcu, hq.1.symm⟩
  · by_cases hqc : q = c
    · obtain ⟨b, hb⟩ := @promoted_proc_same s c m dir usz
      rw [hqc, hb]
      exact fun _ => rfl
    · have hqpid : (s.proc q).pid ≠ (s.proc c).pid := by
        intro heq
        rw [promoted_pid hmc, promoted_pid hmc] at hnot
        exact hnot ⟨heq, hqc⟩
      rw [promoted_proc_ne hqc fun heq => hqpid (heq ▸ hpid)]
      refine h.main q ?_
      unfold Schedulable at hq ⊢
      rwa [promoted_state hmc] at hq
  · obtain rfl : i = j := Option.some.inj (hi.symm.trans hj)
    rw [promoted_other hmc hz fun h => hh.not_init i hi h.1]
  · rw [promoted_member hmc] at hq
    have hne : s.initproc ≠ some q := hne
    by_cases hqpid : (s.proc q).pid = (s.proc c).pid
    · rcases h.moved_up hh hcu hr hrparent hothers hz hqpid with hto | hto
      · refine ⟨r, hto, (promoted_used hmc).mpr hh.used, .inr (.inr (hformer q hqpid)), fun heq => ?_,
          fun _ hzr => ?_, fun hu hnot => ?_⟩
        · rw [promoted_pid hmc, promoted_pid hmc, hqpid] at heq
          exact absurd heq.symm hh.parent_pid
        · rw [promoted_state hmc, promoted_pid hmc, promoted_pid hmc] at hzr
          exact absurd (hzr.resolve_right fun h => hh.parent_pid h.1) hh.alive
        · rw [promoted_pid hmc, promoted_pid hmc] at hnot
          obtain rfl : q = c := not_not.mp fun hqc => hnot ⟨hqpid, hqc⟩
          exact absurd ((promoted_used hmc).mpr hcu) hu
      · refine ⟨i, hto.trans hi, (promoted_used hmc).mpr hiu, .inl hi, fun heq => ?_, fun hnot => absurd hi hnot,
          fun _ _ => .inl hi⟩
        rw [promoted_pid hmc, promoted_pid hmc, hqpid] at heq
        exact absurd heq.symm (hh.not_init i hi)
    · obtain ⟨x, hx, hdesc⟩ := h.parent q hq hne
      have hqc : q ≠ c := fun heq => hqpid (heq ▸ rfl)
      refine ⟨x, ?_, (promoted_used hmc).mpr hdesc.used, ?_, fun heq => ?_, fun hnot hzx => ?_, fun hu _ => ?_⟩
      · rw [promoted_other hmc hz fun h => hqpid h.1, promoted_parent hmc hqc, hx]
      · rw [Lineage.replace_former, if_neg hqpid]
        exact hdesc.origin
      · rw [promoted_pid hmc, promoted_pid hmc] at heq
        have hxpid : (s.proc x).pid ≠ (s.proc c).pid := heq ▸ hqpid
        have hxc : x ≠ c := fun h => hxpid (h ▸ rfl)
        have hxm : x ≠ m := fun h => hxpid (h ▸ hh.pid)
        rw [promoted_proc_ne hxc hxm, promoted_proc_ne hqc fun h => hqpid (h ▸ hh.pid)]
        exact hdesc.thread heq
      · simp only [promoted_state hmc, promoted_pid hmc] at hzx
        simp only [promoted_state hmc, promoted_pid hmc]
        rcases hzx with hzx | ⟨hxpid, hxc⟩
        · exact (hdesc.zombie hnot hzx).imp_left .inl
        · exact absurd (h.pid_of_child hok hq hne hx hxc hnot hxpid) hqpid
      · rw [promoted_pid hmc, promoted_pid hmc]
        exact hdesc.stale fun h => hu ((promoted_used hmc).mpr h)

end Kernel.Kin

/-! ## Steps -/

namespace Kernel.Kin

variable {s t : Kernel} {g : Lineage} {c p : Slot}

/-- A zombie is given back that has no children. -/
theorem reap (h : s.Kin g) (hd : s.Drops t p) (hnext : t.nextpid = s.nextpid) (hpid : (t.proc p).pid = 0)
    (hz : (s.proc p).state = .zombie) (hinit : s.initproc ≠ some p)
    (hmains : (s.proc p).isMainThread = true → s.MainsOnly p) : t.Kin g := by
  refine h.drop (fun q hq => (hd.other q hq).kept) hd.unused hd.initproc hnext.ge ?_ (fun q hq _ => ?_) hinit
    (fun _ _ => ⟨rfl, rfl, rfl⟩) fun q hq => ?_
  · rw [hpid, hnext]
    exact h.nextpid_pos
  · rw [hpid]
    exact (h.used_pos q hq).ne'
  · exact h.parent_ne_of_zombie hq hz fun hm => ⟨hmains hm, hinit⟩

theorem not_init_of_thread (h : s.Kin g) (hm : (s.proc p).isMainThread = false) : s.initproc ≠ some p := by
  intro hp
  obtain ⟨i, hi, -, -, hmain⟩ := h.init
  obtain rfl : i = p := Option.some.inj (hi.symm.trans hp)
  rw [hm] at hmain
  cases hmain

theorem not_init_of_child (h : s.Kin g) {r : Slot} (hr : (s.proc p).parent = some r) : s.initproc ≠ some p := by
  intro hp
  obtain ⟨i, hi, -, hnone, -⟩ := h.init
  obtain rfl : i = p := Option.some.inj (hi.symm.trans hp)
  rw [hnone] at hr
  cases hr

theorem scanned (h : s.Kin g) (hs : s.Scanned c t) : t.Kin g := by
  induction hs with
  | refl => exact h
  | skip _ _ ih => exact ih.like Kernel.like_skipped
  | reap _ hz hm _ ih =>
    refine ih.reap Kernel.drops_reaped rfl ?_ hz (ih.not_init_of_thread hm) fun hm' => ?_
    · rw [Kernel.reaped_proc_same]
      rfl
    · rw [hm] at hm'
      cases hm'

/-- A slot is taken and given up again. -/
theorem spoil {dir : Option Page} (h : s.Kin g) (hp : s.freeSlot = some p) (hlt : s.nextpid < 2 ^ 31 - 1) :
    (s.spoiled p dir).Kin (g.takeFree s c) := by
  have hunused : ¬ s.Used p := fun hu => hu (s.freeSlot_unused hp)
  have hpid : ((s.spoiled p dir).proc p).pid = s.nextpid := by
    unfold spoiled
    rw [upd_proc_same, claimSlot_proc, if_pos rfl]
    rfl
  have hnext := (@claims_spoiled s p dir).nextpid_eq h.nextpid_pos hlt
  have htake : g.takeFree s c = g.take c p := by
    unfold Lineage.takeFree
    rw [hp]
  rw [htake]
  refine h.drop (fun q hq => (drops_spoiled.other q hq).kept) drops_spoiled.unused rfl (by omega) (by omega)
    (fun q _ _ => ?_) (fun hi => ?_) (fun q hq => ?_) fun q hq => h.parent_ne hq hunused
  · rw [hpid]
    exact (h.pid_lt q).ne
  · obtain ⟨i, hi', hused, -⟩ := h.init
    obtain rfl : i = p := Option.some.inj (hi'.symm.trans hi)
    exact hunused hused
  · exact ⟨Function.update_of_ne hq _ _, Function.update_of_ne hq _ _, Function.update_of_ne hq _ _⟩

theorem takeFree (h : s.Kin g) (hp : s.freeSlot = some p) (hc : s.Schedulable c)
    (hother : ∀ q, q ≠ p → (s.proc q).Kept (t.proc q)) (hclaims : s.Claims t) (hlt : s.nextpid < 2 ^ 31 - 1)
    (hparent : (t.proc p).parent = some c) (hmain : (t.proc p).isThread = false → (t.proc p).isMainThread = true)
    (hkind : ((t.proc p).pid = s.nextpid ∧ t.Used p) ∨
      ((t.proc p).pid = (s.proc c).pid ∧ (t.proc p).isMainThread = false ∧ (s.proc c).isMainThread = true)) :
    t.Kin (g.takeFree s c) := by
  have hunused : ¬ s.Used p := fun hu => hu (s.freeSlot_unused hp)
  have hnext := hclaims.nextpid_eq h.nextpid_pos hlt
  have htake : g.takeFree s c = g.take c p := by
    unfold Lineage.takeFree
    rw [hp]
  rw [htake]
  exact h.take hunused hc hother hclaims.initproc (by omega) hparent hmain hkind

theorem forked (h : s.Kin g) (hp : s.freeSlot = some p) (hc : s.Schedulable c) (hlt : s.nextpid < 2 ^ 31 - 1)
    {k d : Page} {f : Files} : (s.forked c p k d f).Kin (g.takeFree s c) := by
  have hborn := @forked_born s c p k d f
  refine h.takeFree hp hc (fun q hq => ?_) claims_forked hlt hborn.parent (fun _ => hborn.isMainThread)
    (.inl ⟨hborn.pid, ?_⟩)
  · rw [forked_proc_ne hq]
    exact .refl _
  · unfold Used
    rw [hborn.state]
    decide

theorem threadUp (h : s.Kin g) (hp : s.freeSlot = some p) (hc : s.Schedulable c) (ht : (s.proc c).isThread = false)
    (hlt : s.nextpid < 2 ^ 31 - 1) {k : Page} {pass : ℚ} {f : Files} {usz sz : Nat} :
    ((s.threaded c p k pass f).threadUp p usz sz).Kin (g.takeFree s c) := by
  have hborn := @threadUp_born s c p k pass f usz sz (ne_freeSlot (s.used_of_schedulable c hc) hp)
  refine h.takeFree hp hc (fun q hq => (threadUp_like hq).kept) claims_threadUp hlt hborn.parent (fun hnot => ?_)
    (.inr ⟨hborn.pid, hborn.isMainThread, h.main c hc ht⟩)
  rw [hborn.isThread] at hnot
  cases hnot

theorem threadDown (h : s.Kin g) (hp : s.freeSlot = some p) (hc : s.Schedulable c)
    (ht : (s.proc c).isThread = false) (hlt : s.nextpid < 2 ^ 31 - 1) {k : Page} {pass : ℚ} {f : Files} :
    ((s.threaded c p k pass f).threadDown p).Kin (g.takeFree s c) := by
  have hne := ne_freeSlot (s.used_of_schedulable c hc) hp
  obtain ⟨m, sh, st, pa, hnew⟩ := s.threaded_proc_same k pass f hne
  have hproc : ((s.threaded c p k pass f).threadDown p).proc p =
      { (s.threaded c p k pass f).proc p with state := .unused, kstack := none } := upd_proc_same _ _ _
  rw [hnew] at hproc
  refine h.takeFree hp hc (fun q hq => (drops_threadDown.other q hq).kept) claims_threadDown hlt ?_ (fun hnot => ?_)
    (.inr ?_)
  · rw [hproc]
  · rw [hproc] at hnot
    cases hnot
  · rw [hproc]
    exact ⟨rfl, rfl, h.main c hc ht⟩

theorem exited (h : s.Kin g) (hc : s.Schedulable c) (hok : s.NoOthersChildren c)
    (hl : s.Left t c fun q => (s.proc q).pid = (s.proc c).pid) : t.Kin g := by
  refine h.left hl (fun q hq => ⟨c, s.used_of_schedulable c hc, hq.symm⟩) fun q r hq hr hrc hinit hpid => ?_
  have hqc := h.pid_of_child hok hq (h.not_init_of_child hr) hr hrc hinit hpid
  exact ⟨hqc, hqc.trans hpid.symm⟩

theorem threadExited (h : s.Kin g) (hc : s.Schedulable c) {v : Int}
    (hl : (s.upd c fun x => { x with retval := v }).Left t c (· = c)) : t.Kin g := by
  have hlike : s.Like (s.upd c fun x => { x with retval := v }) :=
    .of_upd ⟨.inl rfl, rfl, rfl, rfl, rfl, rfl, rfl, rfl, rfl⟩
  have hcu := (hlike.used c).mpr (s.used_of_schedulable c hc)
  refine (h.like hlike).left hl (fun q hq => ?_) fun q r _ _ hrc _ hr => absurd hr hrc
  rw [hq]
  exact hcu.member

theorem imaged (h : s.Kin g) {dir : Page} {usz n : Nat} : (s.imaged c dir usz n).Kin g := by
  refine h.kept (fun q => ?_) rfl rfl
  by_cases hq : q = c
  · subst hq
    rw [imaged_proc_same]
    exact ⟨.inl rfl, rfl, rfl, rfl, rfl⟩
  · rw [imaged_proc_ne hq]
    exact .refl _

theorem freeDir (h : s.Kin g) {old : Page} : (s.freeDir p old).Kin g := h.kept (fun _ => .refl _) rfl rfl

theorem execed (h : s.Kin g) (hc : s.Schedulable c) (ht : (s.proc c).isThread = false) (hok : s.NoOthersChildren c)
    (hthreads : s.InitThreads c) {dir : Page} {usz : Nat} (hz : (s.execed c dir usz).Zombified t c) : t.Kin g := by
  have hkept : ∀ q, (s.proc q).Kept ((s.execed c dir usz).proc q) := by
    intro q
    by_cases hq : q = c
    · subst hq
      rw [execed_proc_same]
      exact ⟨.inl rfl, rfl, rfl, rfl, rfl⟩
    · rw [execed_proc_ne hq]
      exact .refl _
  have hinit : (s.execed c dir usz).initproc = s.initproc := rfl
  refine (h.kept hkept rfl rfl).shed ((hkept c).state.schedulable.mpr hc) ((hkept c).isThread.trans ht) ?_ ?_ hz
  · intro q hq r hr
    rw [(hkept q).parent] at hr
    rw [hinit, (hkept r).pid, (hkept c).pid, (hkept q).pid]
    exact hok q ((hkept q).state.used.mp hq) r hr
  · intro q hq
    rw [hinit, (hkept q).pid, (hkept c).pid, (hkept q).parent, (hkept c).parent]
    exact hthreads q hq

theorem joined (h : s.Kin g) (hc : s.Schedulable c) {thread i : Int} (hok : s.JoinsOwn c thread)
    (ht : s.joinTarget c thread = some (p, i)) (hp : ¬ s.Pending c p i) {k : Page} : (s.joined c p k).Kin g := by
  obtain ⟨hparent, hpid, htid⟩ := hok (p, i) ht
  have hz : (s.proc p).state = .zombie := not_not.mp fun hz => hp ⟨hz, hpid, htid⟩
  have hinit := h.not_init_of_child hparent
  obtain ⟨r, hr, hdesc⟩ := h.parent p (s.used_of_zombie p hz).member hinit
  obtain rfl : r = c := Option.some.inj (hr.symm.trans hparent)
  obtain ⟨j, hj⟩ := @joined_proc_same s r p k
  have hnext : (s.joined r p k).nextpid = s.nextpid := by
    unfold Kernel.joined reaped
    rw [refunded_eq]
    rfl
  refine h.reap drops_joined hnext ?_ hz hinit fun hm => ?_
  · rw [hj]
    rfl
  · have := (hdesc.thread hpid).2
    rw [hm] at this
    cases this

theorem after (h : s.Kin g) (hrun : (s.proc c).state = .running) {call : SysCall} (hok : ParentOk s c call)
    (ha : s.After c call t) : t.Kin (g.after s c call) := by
  have hc := schedulable_of_running hrun
  have hcreate : ∀ {stack junk}, (s.proc c).isThread = false →
      g.after s c (.threadCreate stack junk) = g.takeFree s c := fun ht => if_neg (by rw [ht]; decide)
  cases ha with
  | mild hmild hlike _ =>
    cases call with
    | kill _ => exact h.like hlike
    | sbrk _ _ => exact h.like hlike
    | file _ => exact h.like hlike
    | _ => exact hmild.elim
  | setCpuShare hlike => exact h.like hlike
  | full hfull =>
    unfold Lineage.after Lineage.takeFree
    rw [hfull]
    exact h
  | forkSpoiled hp _ => exact h.spoil hp hok
  | forked hp _ _ _ => exact h.forked hp hc hok
  | noThread hno =>
    unfold Lineage.after Lineage.takeFree
    dsimp only
    split
    · exact h
    · next ht =>
      rw [hno.resolve_left ht]
      exact h
  | createSpoiled ht hp =>
    rw [hcreate ht]
    exact h.spoil hp hok
  | threadUp ht hp _ =>
    rw [hcreate ht]
    exact h.threadUp hp hc ht hok
  | threadDown ht hp _ _ =>
    rw [hcreate ht]
    exact h.threadDown hp hc ht hok
  | exited _ hl => exact h.exited hc hok hl
  | threadExited _ hl => exact h.threadExited hc hl
  | notLoaded => exact h
  | imaged _ _ => exact h.imaged
  | execed ht _ _ hz =>
    have hnot : ¬ (s.proc c).isThread = true := by rw [ht]; decide
    have hg : ∀ dir usz, g.after s c (.exec (.ok dir usz)) = g := fun _ _ => if_neg hnot
    rw [hg]
    have hthreads := hok.2
    rw [if_neg hnot] at hthreads
    exact (h.execed hc ht hok.1 hthreads hz).freeDir
  | promoted ht _ hm _ hz =>
    have hg : ∀ dir usz, g.after s c (.exec (.ok dir usz)) = g.replace s c := fun _ _ => if_pos ht
    rw [hg]
    have hgrand := hok.2
    rw [if_pos ht] at hgrand
    exact (h.replace hc hok.1 hgrand hm hz).freeDir
  | waited hs => exact h.scanned hs
  | dozed hs => exact (h.scanned hs).like (like_dozing (hs.running hrun))
  | buried hs hp hz hm ho _ _ =>
    have ht := h.scanned hs
    refine (ht.reap drops_buried ?_ ?_ hz (ht.not_init_of_child hp) fun _ => ho).freeDir
    · unfold buried reaped
      rw [refunded_eq]
      rfl
    · rw [buried_proc_same]
      rfl
  | noTarget => exact h
  | joining => exact h.like (like_joining hrun)
  | joined ht hp _ => exact h.joined hc hok ht hp

end Kernel.Kin

theorem boot_kin {stack dir : Page} {root : InodePtr} : (boot stack dir root).Kin .empty := by
  have hzero : ∀ q, (boot stack dir root).Member q → q = 0 := by
    rintro q ⟨r, hr, hpid⟩
    obtain rfl := eq_zero_of_boot_used hr
    by_contra hq
    rw [boot_proc_ne hq] at hpid
    cases hpid
  refine ⟨⟨?_, fun q => ?_, fun q hq => ?_, ⟨0, rfl, boot_used_zero, rfl, rfl⟩, fun a b ha hb _ _ _ => ?_⟩,
    fun q hq _ => ?_, fun q hq hne => absurd (hzero q hq ▸ rfl) hne⟩
  · change (0 : Int) < 2
    decide
  · by_cases hq : q = 0
    · rw [hq]
      change (1 : Int) < 2
      decide
    · rw [boot_proc_ne hq]
      change (0 : Int) < 2
      decide
  · rw [eq_zero_of_boot_used hq]
    change (0 : Int) < 1
    decide
  · rw [hzero a ha, hzero b hb]
  · rw [eq_zero_of_boot_used (Kernel.used_of_schedulable _ q hq)]
    rfl

theorem Traced.kin {stack dir : Page} {root : InodePtr} {s : Kernel} {g : Lineage}
    (h : Traced ParentOk (boot stack dir root) s g) : s.Kin g := by
  induction h with
  | refl => exact boot_kin
  | idle _ hidle ih => exact ih.like hidle.like
  | call _ c call hready hok hrun ih => exact ih.after hready.running hok (hready.after.of_run hrun)

/-- In every run that meets the condition, each process but `init` has a parent that is not
    unused, and that is the process that created it, `init`, or the former parent of the
    group, where a thread has called `exec`; and no process names a free slot as its parent. -/
theorem parents_never_dangle {stack dir : Page} {root : InodePtr} {s : Kernel} {g : Lineage}
    (h : Traced ParentOk (boot stack dir root) s g) :
    (∀ q, s.Used q → s.initproc ≠ some q → ∃ r, (s.proc q).parent = some r ∧ s.Used r ∧
      (g.creator q = some (r, g.born r) ∨ s.initproc = some r ∨ g.former q = some (r, g.born r))) ∧
    ∀ p q, ¬ s.Used p → s.Used q → (s.proc q).parent ≠ some p := by
  have hkin := h.kin
  refine ⟨fun q hq hne => ?_, fun p q hp hq => hkin.parent_ne hq.member hp⟩
  obtain ⟨r, hr, hdesc⟩ := hkin.parent q hq.member hne
  exact ⟨r, hr, hdesc.used, or_left_comm.mp hdesc.origin⟩

/-- A child of `init` creates a thread and forks; a grandchild of `init` with a thread is
    replaced by it, and its children go up. -/
def grandchildren : List (Slot × SysCall) :=
  [(0, .fork (some 2) (some 3)), (1, .fork (some 4) (some 5)), (2, .exec (.ok 6 8192)), (2, .threadCreate (some 7) 0),
    (2, .threadCreate (some 8) 0), (4, .exec (.ok 9 8192)), (4, .fork (some 10) (some 11)), (4, .exit), (1, .wait)]

theorem parents_never_dangle_grandchildren : ∃ s g, Traced ParentOk (boot 0 1 0) s g ∧ s.Used 5 ∧
    s.initproc ≠ some 5 ∧ ∃ r, (s.proc 5).parent = some r ∧ s.Used r := by
  have hplay : (play ParentOk grandchildren (boot 0 1 0)).any (fun s => s.Used 5 ∧ s.initproc ≠ some 5) = true := by
    decide +kernel
  obtain ⟨s, hrun, htest⟩ := Run.exists_of_play hplay
  obtain ⟨hused, hinit⟩ := of_decide_eq_true htest
  obtain ⟨g, hg⟩ := hrun.traced
  obtain ⟨r, hr, hr', -⟩ := (parents_never_dangle hg).1 5 hused hinit
  exact ⟨s, g, hg, hused, hinit, r, hr, hr'⟩

/-- A thread forks, its main thread exits, and `init` reaps both. -/
def forkingThread : List (Slot × SysCall) :=
  [(0, .fork (some 2) (some 3)), (1, .exec (.ok 4 8192)), (1, .threadCreate (some 5) 0),
    (2, .fork (some 6) (some 7)), (1, .exit), (0, .wait)]

/-- The child of the thread is left with a free slot as its parent. -/
theorem parent_dangles : ∃ s, Run (fun _ _ _ => True) (boot 0 1 0) s ∧ s.Schedulable 3 ∧ s.initproc ≠ some 3 ∧
    (s.proc 3).parent = some 2 ∧ ¬ s.Used 2 := by
  have hplay : (play (fun _ _ _ => True) forkingThread (boot 0 1 0)).any (fun s =>
      s.Schedulable 3 ∧ s.initproc ≠ some 3 ∧ (s.proc 3).parent = some 2 ∧ ¬ s.Used 2) = true := by
    decide +kernel
  obtain ⟨s, hrun, hbad⟩ := Run.exists_of_play hplay
  exact ⟨s, hrun, of_decide_eq_true hbad⟩

end Xv6
