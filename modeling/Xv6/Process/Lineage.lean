-- SUMMARY: Who created whom, and what has to hold of parents from step to step.
import Xv6.Process.Runs

/-! # Lineage

Slots are used again. Who created whom is therefore kept beside the run, with the
number of times that a slot has been taken. The invariant says of every process, and
of every slot that is taken for one, that its parent is there and is a right one. It
is kept when a slot changes hands and when a group of threads ends.
-/

namespace Xv6

/-! ## Who created whom -/

/-- `born` counts how often a slot has been taken. A process is its slot and that number. -/
structure Lineage where
  born : Slot → Nat
  creator : Slot → Option (Slot × Nat)
  /-- The parent that the process had whose thread called `exec`. -/
  former : Slot → Option (Slot × Nat)

namespace Lineage

def empty : Lineage := ⟨fun _ => 0, fun _ => none, fun _ => none⟩

/-- `c` takes slot `p`. -/
@[simps] def take (g : Lineage) (c p : Slot) : Lineage where
  born := Function.update g.born p (g.born p + 1)
  creator := Function.update g.creator p (some (c, g.born c))
  former := Function.update g.former p none

/-- `c` takes the first free slot. -/
def takeFree (g : Lineage) (s : Kernel) (c : Slot) : Lineage :=
  match s.freeSlot with
  | none => g
  | some p => g.take c p

/-- The thread `c` has called `exec`. -/
@[simps] def replace (g : Lineage) (s : Kernel) (c : Slot) : Lineage where
  born := g.born
  creator := g.creator
  former q := if (s.proc q).pid = (s.proc c).pid then
    ((s.proc c).parent.bind fun m => (s.proc m).parent).map fun r => (r, g.born r) else g.former q

/-- After a call of `c` in state `s`. -/
def after (g : Lineage) (s : Kernel) (c : Slot) : SysCall → Lineage
  | .fork _ _ => g.takeFree s c
  | .threadCreate _ _ => if (s.proc c).isThread then g else g.takeFree s c
  | .exec (.ok _ _) => if (s.proc c).isThread then g.replace s c else g
  | _ => g

end Lineage

/-- A run, with who created whom. -/
inductive Traced (Ok : Kernel → Slot → SysCall → Prop) (s : Kernel) : Kernel → Lineage → Prop where
  | refl : Traced Ok s s .empty
  | idle {t u : Kernel} {g : Lineage} (h : Traced Ok s t g) (hidle : Idle t u) : Traced Ok s u g
  | call {t u : Kernel} {g : Lineage} {r : Outcome Int} (h : Traced Ok s t g) (c : Slot) (call : SysCall)
      (hready : call.Ready t c) (hok : Ok t c call) (hrun : call.run c t = .ok (r, u)) :
      Traced Ok s u (g.after t c call)

theorem Run.traced {Ok : Kernel → Slot → SysCall → Prop} {s t : Kernel} (h : Run Ok s t) : ∃ g, Traced Ok s t g := by
  induction h with
  | refl => exact ⟨_, .refl⟩
  | idle _ hidle ih =>
    obtain ⟨g, hg⟩ := ih
    exact ⟨g, hg.idle hidle⟩
  | call _ c call hready hok hrun ih =>
    obtain ⟨g, hg⟩ := ih
    exact ⟨_, hg.call c call hready hok hrun⟩

/-! ## Invariant -/

/-- `q` has the pid of a process. A slot that a failed `thread_create` has left behind has
    the pid of the caller, and is taken for one of its threads when the group ends. -/
def Kernel.Member (s : Kernel) (q : Slot) : Prop := ∃ r, s.Used r ∧ (s.proc r).pid = (s.proc q).pid

theorem Kernel.Used.member {s : Kernel} {q : Slot} (h : s.Used q) : s.Member q := ⟨q, h, rfl⟩

/-- `r` is rightly the parent of `q`. -/
structure Kernel.Descends (s : Kernel) (g : Lineage) (q r : Slot) : Prop where
  used : s.Used r
  origin : s.initproc = some r ∨ g.creator q = some (r, g.born r) ∨ g.former q = some (r, g.born r)
  /-- Within a group the parent is the main thread. -/
  thread : (s.proc q).pid = (s.proc r).pid → (s.proc r).isMainThread = true ∧ (s.proc q).isMainThread = false
  /-- Who has a zombie as parent ends together with it. -/
  zombie : s.initproc ≠ some r → (s.proc r).state = .zombie →
    (s.proc q).state = .zombie ∧ (s.proc q).pid = (s.proc r).pid
  stale : ¬ s.Used q → s.initproc = some r ∨ (s.proc q).pid = (s.proc r).pid

/-- Pids and main threads. -/
structure Kernel.Groups (s : Kernel) : Prop where
  nextpid_pos : 0 < s.nextpid
  pid_lt : ∀ q, (s.proc q).pid < s.nextpid
  used_pos : ∀ q, s.Used q → 0 < (s.proc q).pid
  init : ∃ i, s.initproc = some i ∧ s.Used i ∧ (s.proc i).parent = none ∧ (s.proc i).isMainThread = true
  one_main : ∀ p q, s.Member p → s.Member q → (s.proc p).isMainThread = true → (s.proc q).isMainThread = true →
    (s.proc p).pid = (s.proc q).pid → p = q

structure Kernel.Kin (s : Kernel) (g : Lineage) : Prop extends s.Groups where
  main : ∀ q, s.Schedulable q → (s.proc q).isThread = false → (s.proc q).isMainThread = true
  parent : ∀ q, s.Member q → s.initproc ≠ some q → ∃ r, (s.proc q).parent = some r ∧ s.Descends g q r

/-- `y` is `x` as far as parents go. -/
structure Proc.Kept (x y : Proc) : Prop where
  state : x.state.Like y.state
  pid : y.pid = x.pid
  parent : y.parent = x.parent
  isThread : y.isThread = x.isThread
  isMainThread : y.isMainThread = x.isMainThread

theorem Proc.Like.kept {x y : Proc} (h : x.Like y) : x.Kept y :=
  ⟨h.state, h.pid, h.parent, h.isThread, h.isMainThread⟩

theorem Proc.Kept.refl (x : Proc) : x.Kept x := ⟨.inl rfl, rfl, rfl, rfl, rfl⟩

theorem Kernel.Descends.kept {s t : Kernel} {g g' : Lineage} {q r : Slot} (h : s.Descends g q r)
    (hkq : (s.proc q).Kept (t.proc q)) (hkr : (s.proc r).Kept (t.proc r)) (hinit : t.initproc = s.initproc)
    (hborn : g'.born r = g.born r) (hcreator : g'.creator q = g.creator q) (hformer : g'.former q = g.former q) :
    t.Descends g' q r := by
  refine ⟨hkr.state.used.mpr h.used, ?_, ?_, ?_, ?_⟩
  · rw [hinit, hborn, hcreator, hformer]
    exact h.origin
  · rw [hkq.pid, hkr.pid, hkq.isMainThread, hkr.isMainThread]
    exact h.thread
  · rw [hinit, hkq.state.zombie, hkr.state.zombie, hkq.pid, hkr.pid]
    exact h.zombie
  · intro hu
    rw [hinit, hkq.pid, hkr.pid]
    exact h.stale fun hs => hu (hkq.state.used.mpr hs)

namespace Kernel.Groups

variable {s : Kernel} {q r : Slot}

theorem member_pos (h : s.Groups) (hq : s.Member q) : 0 < (s.proc q).pid := by
  obtain ⟨r, hr, hpid⟩ := hq
  exact hpid ▸ h.used_pos r hr

/-- Who has the pid of `init` and is not `init` is a thread. -/
theorem thread_of_init (h : s.Groups) (hq : s.Member q) (hne : s.initproc ≠ some q) (hr : s.initproc = some r)
    (hpid : (s.proc q).pid = (s.proc r).pid) :
    (s.proc r).isMainThread = true ∧ (s.proc q).isMainThread = false := by
  obtain ⟨i, hi, hused, -, hmain⟩ := h.init
  obtain rfl : i = r := Option.some.inj (hi.symm.trans hr)
  refine ⟨hmain, Bool.eq_false_iff.mpr fun hq' => hne ?_⟩
  rw [h.one_main q i hq hused.member hq' hmain hpid, hi]

end Kernel.Groups

namespace Kernel.Kin

variable {s t : Kernel} {g g' : Lineage} {c p q r : Slot}

/-- `init` is rightly the parent of everybody. -/
theorem descends_init (h : s.Kin g) (hq : s.Member q) (hne : s.initproc ≠ some q) (hr : s.initproc = some r) :
    s.Descends g q r := by
  obtain ⟨i, hi, hused, -, -⟩ := h.init
  obtain rfl : i = r := Option.some.inj (hi.symm.trans hr)
  exact ⟨hused, .inl hi, h.thread_of_init hq hne hi, fun hnot => absurd hi hnot, fun _ => .inl hi⟩

/-- A free slot is nobody's parent. -/
theorem parent_ne (h : s.Kin g) (hq : s.Member q) (hp : ¬ s.Used p) : (s.proc q).parent ≠ some p := by
  intro hparent
  by_cases hinit : s.initproc = some q
  · obtain ⟨i, hi, -, hnone, -⟩ := h.init
    obtain rfl : i = q := Option.some.inj (hi.symm.trans hinit)
    rw [hnone] at hparent
    cases hparent
  · obtain ⟨r, hr, hdesc⟩ := h.parent q hq hinit
    obtain rfl : r = p := Option.some.inj (hr.symm.trans hparent)
    exact hp hdesc.used

/-- Only a main thread that is a zombie can have children. -/
theorem parent_ne_of_zombie (h : s.Kin g) (hq : s.Member q) (hz : (s.proc p).state = .zombie)
    (hp : (s.proc p).isMainThread = true → s.MainsOnly p ∧ s.initproc ≠ some p) : (s.proc q).parent ≠ some p := by
  intro hparent
  obtain ⟨i, hi, -, hnone, hmain⟩ := h.init
  have hinit : s.initproc ≠ some q := by
    intro hinit
    obtain rfl : i = q := Option.some.inj (hi.symm.trans hinit)
    rw [hnone] at hparent
    cases hparent
  obtain ⟨r, hr, hdesc⟩ := h.parent q hq hinit
  obtain rfl : r = p := Option.some.inj (hr.symm.trans hparent)
  have hne : s.initproc ≠ some r := by
    intro heq
    obtain rfl : i = r := Option.some.inj (hi.symm.trans heq)
    exact (hp hmain).2 heq
  obtain ⟨hzq, hpid⟩ := hdesc.zombie hne hz
  obtain ⟨hm, hm'⟩ := hdesc.thread hpid
  have := (hp hm).1 q hpid hzq
  rw [hm'] at this
  cases this

/-! ## One slot changes hands -/

/-- All slots but `p` are as before. -/
theorem member_of (hother : ∀ q, q ≠ p → (s.proc q).Kept (t.proc q)) (hq : q ≠ p) (h : t.Member q)
    (hp : t.Used p → (t.proc p).pid = (t.proc q).pid → s.Member q) : s.Member q := by
  obtain ⟨r, hr, hpid⟩ := h
  by_cases hrp : r = p
  · subst hrp
    exact hp hr hpid
  · rw [(hother r hrp).pid, (hother q hq).pid] at hpid
    exact ⟨r, (hother r hrp).state.used.mp hr, hpid⟩

/-- Slot `p` is given up, or taken and given up again. -/
theorem drop (h : s.Kin g) (hother : ∀ q, q ≠ p → (s.proc q).Kept (t.proc q)) (hunused : ¬ t.Used p)
    (hinit : t.initproc = s.initproc) (hnext : s.nextpid ≤ t.nextpid) (hlt : (t.proc p).pid < t.nextpid)
    (hpid : ∀ q, s.Used q → q ≠ p → (s.proc q).pid ≠ (t.proc p).pid) (hp : s.initproc ≠ some p)
    (hg : ∀ q, q ≠ p → g'.born q = g.born q ∧ g'.creator q = g.creator q ∧ g'.former q = g.former q)
    (hchild : ∀ q, s.Member q → (s.proc q).parent ≠ some p) : t.Kin g' := by
  have hmember : ∀ q, t.Member q → q ≠ p ∧ s.Member q := by
    intro q hq
    have hqp : q ≠ p := by
      rintro rfl
      obtain ⟨r, hr, hpid'⟩ := hq
      have hrq : r ≠ q := fun heq => hunused (heq ▸ hr)
      rw [(hother r hrq).pid] at hpid'
      exact hpid r ((hother r hrq).state.used.mp hr) hrq hpid'
    exact ⟨hqp, member_of hother hqp hq fun hu => absurd hu hunused⟩
  refine ⟨⟨lt_of_lt_of_le h.nextpid_pos hnext, fun q => ?_, fun q hq => ?_, ?_, fun a b ha hb => ?_⟩, fun q hq => ?_,
    fun q hq hne => ?_⟩
  · by_cases hqp : q = p
    · exact hqp ▸ hlt
    · rw [(hother q hqp).pid]
      exact lt_of_lt_of_le (h.pid_lt q) hnext
  · have hqp := (hmember q hq.member).1
    rw [(hother q hqp).pid]
    exact h.used_pos q ((hother q hqp).state.used.mp hq)
  · obtain ⟨i, hi, hused, hnone, hmain⟩ := h.init
    have hip : i ≠ p := fun heq => hp (heq ▸ hi)
    have hk := hother i hip
    exact ⟨i, hinit.trans hi, hk.state.used.mpr hused, hk.parent.trans hnone, hk.isMainThread.trans hmain⟩
  · obtain ⟨hap, ha⟩ := hmember a ha
    obtain ⟨hbp, hb⟩ := hmember b hb
    rw [(hother a hap).isMainThread, (hother b hbp).isMainThread, (hother a hap).pid, (hother b hbp).pid]
    exact h.one_main a b ha hb
  · have hk := hother q (hmember q (t.used_of_schedulable q hq).member).1
    rw [hk.isThread, hk.isMainThread]
    exact h.main q (hk.state.schedulable.mp hq)
  · obtain ⟨hqp, hq⟩ := hmember q hq
    obtain ⟨r, hr, hdesc⟩ := h.parent q hq (hinit ▸ hne)
    have hrp : r ≠ p := fun heq => hchild q hq (heq ▸ hr)
    exact ⟨r, (hother q hqp).parent.trans hr, hdesc.kept (hother q hqp) (hother r hrp) hinit (hg r hrp).1 (hg q hqp).2.1
      (hg q hqp).2.2⟩

/-- No slot changes hands. -/
theorem kept (h : s.Kin g) (hproc : ∀ q, (s.proc q).Kept (t.proc q)) (hinit : t.initproc = s.initproc)
    (hnext : t.nextpid = s.nextpid) : t.Kin g := by
  have hmember : ∀ q, t.Member q → s.Member q := by
    rintro q ⟨r, hr, hpid⟩
    rw [(hproc r).pid, (hproc q).pid] at hpid
    exact ⟨r, (hproc r).state.used.mp hr, hpid⟩
  refine ⟨⟨hnext ▸ h.nextpid_pos, fun q => ?_, fun q hq => ?_, ?_, fun a b ha hb => ?_⟩, fun q hq => ?_,
    fun q hq hne => ?_⟩
  · rw [(hproc q).pid, hnext]
    exact h.pid_lt q
  · rw [(hproc q).pid]
    exact h.used_pos q ((hproc q).state.used.mp hq)
  · obtain ⟨i, hi, hused, hnone, hmain⟩ := h.init
    have hk := hproc i
    exact ⟨i, hinit.trans hi, hk.state.used.mpr hused, hk.parent.trans hnone, hk.isMainThread.trans hmain⟩
  · rw [(hproc a).isMainThread, (hproc b).isMainThread, (hproc a).pid, (hproc b).pid]
    exact h.one_main a b (hmember a ha) (hmember b hb)
  · rw [(hproc q).isThread, (hproc q).isMainThread]
    exact h.main q ((hproc q).state.schedulable.mp hq)
  · obtain ⟨r, hr, hdesc⟩ := h.parent q (hmember q hq) (hinit ▸ hne)
    exact ⟨r, (hproc q).parent.trans hr, hdesc.kept (hproc q) (hproc r) hinit rfl rfl rfl⟩

theorem like (h : s.Kin g) (hl : s.Like t) : t.Kin g := h.kept (fun q => (hl.proc q).kept) hl.initproc hl.nextpid

/-- `c` takes slot `p`, for a process or for a thread. -/
theorem take (h : s.Kin g) (hp : ¬ s.Used p) (hc : s.Schedulable c)
    (hother : ∀ q, q ≠ p → (s.proc q).Kept (t.proc q)) (hinit : t.initproc = s.initproc)
    (hnext : s.nextpid < t.nextpid) (hparent : (t.proc p).parent = some c)
    (hmain : (t.proc p).isThread = false → (t.proc p).isMainThread = true)
    (hkind : ((t.proc p).pid = s.nextpid ∧ t.Used p) ∨
      ((t.proc p).pid = (s.proc c).pid ∧ (t.proc p).isMainThread = false ∧ (s.proc c).isMainThread = true)) :
    t.Kin (g.take c p) := by
  have hcu := s.used_of_schedulable c hc
  have hcp : c ≠ p := fun heq => hp (heq ▸ hcu)
  have hkc := hother c hcp
  have hg : ∀ q, q ≠ p → (g.take c p).born q = g.born q ∧ (g.take c p).creator q = g.creator q ∧
      (g.take c p).former q = g.former q := fun q hq =>
    ⟨Function.update_of_ne hq _ _, Function.update_of_ne hq _ _, Function.update_of_ne hq _ _⟩
  have hmember : ∀ q, q ≠ p → t.Member q → s.Member q := by
    intro q hq hm
    refine member_of hother hq hm fun _ hpid => ?_
    rw [(hother q hq).pid] at hpid
    rcases hkind with ⟨hfresh, -⟩ | ⟨hsame, -⟩
    · have := h.pid_lt q
      omega
    · exact ⟨c, hcu, hsame.symm.trans hpid⟩
  refine ⟨⟨h.nextpid_pos.trans hnext, fun q => ?_, fun q hq => ?_, ?_, fun a b ha hb ham hbm hab => ?_⟩,
    fun q hq => ?_, fun q hq hne => ?_⟩
  · by_cases hqp : q = p
    · have := h.pid_lt c
      subst hqp
      omega
    · rw [(hother q hqp).pid]
      exact (h.pid_lt q).trans hnext
  · by_cases hqp : q = p
    · have := h.used_pos c hcu
      have := h.nextpid_pos
      subst hqp
      omega
    · rw [(hother q hqp).pid]
      exact h.used_pos q ((hother q hqp).state.used.mp hq)
  · obtain ⟨i, hi, hused, hnone, hm⟩ := h.init
    have hk := hother i fun heq => hp (heq ▸ hused)
    exact ⟨i, hinit.trans hi, hk.state.used.mpr hused, hk.parent.trans hnone, hk.isMainThread.trans hm⟩
  · -- A new main thread has a new pid.
    have hnew : ∀ q, q ≠ p → (t.proc p).isMainThread = true → (t.proc q).pid ≠ (t.proc p).pid := by
      intro q hqp hm hpid
      rw [(hother q hqp).pid] at hpid
      rcases hkind with ⟨hfresh, -⟩ | ⟨-, hnot, -⟩
      · have := h.pid_lt q
        omega
      · rw [hnot] at hm
        cases hm
    by_cases hap : a = p
    · by_contra hne
      exact hnew b (fun hbp => hne (hap.trans hbp.symm)) (hap ▸ ham) (hap ▸ hab.symm)
    · by_cases hbp : b = p
      · exact absurd (hbp ▸ hab) (hnew a hap (hbp ▸ hbm))
      · rw [(hother a hap).isMainThread] at ham
        rw [(hother b hbp).isMainThread] at hbm
        rw [(hother a hap).pid, (hother b hbp).pid] at hab
        exact h.one_main a b (hmember a hap ha) (hmember b hbp hb) ham hbm hab
  · by_cases hqp : q = p
    · exact hqp ▸ hmain
    · have hk := hother q hqp
      rw [hk.isThread, hk.isMainThread]
      exact h.main q (hk.state.schedulable.mp hq)
  · by_cases hqp : q = p
    · subst hqp
      have hlive : (t.proc c).state ≠ .zombie := fun hz => hc.not_zombie (hkc.state.zombie.mp hz)
      refine ⟨c, hparent, hkc.state.used.mpr hcu, .inr (.inl ?_), fun hpid => ?_, fun _ hz => absurd hz hlive,
        fun hu => .inr ?_⟩
      · rw [(hg c hcp).1, Lineage.take_creator, Function.update_self]
      · rw [hkc.pid] at hpid
        rcases hkind with ⟨hfresh, -⟩ | ⟨-, hnot, hcm⟩
        · have := h.pid_lt c
          omega
        · exact ⟨hkc.isMainThread.trans hcm, hnot⟩
      · rcases hkind with ⟨-, hused⟩ | ⟨hsame, -⟩
        · exact absurd hused hu
        · rw [hkc.pid, hsame]
    · have hs := hmember q hqp hq
      obtain ⟨r, hr, hdesc⟩ := h.parent q hs (hinit ▸ hne)
      have hrp : r ≠ p := fun heq => h.parent_ne hs hp (heq ▸ hr)
      exact ⟨r, (hother q hqp).parent.trans hr, hdesc.kept (hother q hqp) (hother r hrp) hinit (hg r hrp).1 (hg q hqp).2.1
        (hg q hqp).2.2⟩

/-! ## Groups end -/

/-- Processes become zombies and parents change, to right ones. -/
theorem of_retires {Z : Slot → Prop} (h : s.Groups) (hr : s.Retires t Z) (hZ : ∀ q, Z q → s.Member q)
    (hlast : ∀ q, s.Schedulable q → ¬ Z q → (s.proc q).isThread = false → (s.proc q).isMainThread = true)
    (hinit : ∀ i, s.initproc = some i → (t.proc i).parent = (s.proc i).parent)
    (hparent : ∀ q, s.Member q → s.initproc ≠ some q → ∃ r, (t.proc q).parent = some r ∧ s.Used r ∧
      (s.initproc = some r ∨ g'.creator q = some (r, g'.born r) ∨ g'.former q = some (r, g'.born r)) ∧
      ((s.proc q).pid = (s.proc r).pid → (s.proc r).isMainThread = true ∧ (s.proc q).isMainThread = false) ∧
      (s.initproc ≠ some r → (s.proc r).state = .zombie ∨ Z r →
        ((s.proc q).state = .zombie ∨ Z q) ∧ (s.proc q).pid = (s.proc r).pid) ∧
      (¬ s.Used q → ¬ Z q → s.initproc = some r ∨ (s.proc q).pid = (s.proc r).pid)) : t.Kin g' := by
  have hpid : ∀ q, (t.proc q).pid = (s.proc q).pid := fun q => (hr.same q).pid
  have hmain : ∀ q, (t.proc q).isMainThread = (s.proc q).isMainThread := fun q => (hr.same q).isMainThread
  have hmember : ∀ q, t.Member q → s.Member q := by
    rintro q ⟨r, hu, heq⟩
    rw [hpid, hpid] at heq
    rcases (hr.used r).mp hu with hu | hz
    · exact ⟨r, hu, heq⟩
    · obtain ⟨x, hx, hxr⟩ := hZ r hz
      exact ⟨x, hx, hxr.trans heq⟩
  refine ⟨⟨hr.rest.nextpid ▸ h.nextpid_pos, fun q => ?_, fun q hq => ?_, ?_, fun a b ha hb => ?_⟩, fun q hq => ?_,
    fun q hq hne => ?_⟩
  · rw [hpid, hr.rest.nextpid]
    exact h.pid_lt q
  · rw [hpid]
    exact h.member_pos (hmember q hq.member)
  · obtain ⟨i, hi, hused, hnone, hm⟩ := h.init
    exact ⟨i, hr.rest.initproc.trans hi, (hr.used i).mpr (.inl hused), (hinit i hi).trans hnone, (hmain i).trans hm⟩
  · rw [hmain, hmain, hpid, hpid]
    exact h.one_main a b (hmember a ha) (hmember b hb)
  · rw [(hr.same q).isThread, hmain]
    obtain ⟨hq, hnot⟩ := (hr.schedulable q).mp hq
    exact hlast q hq hnot
  · rw [hr.rest.initproc] at hne
    obtain ⟨r, hq', hused, horigin, hthread, hzombie, hstale⟩ := hparent q (hmember q hq) hne
    refine ⟨r, hq', (hr.used r).mpr (.inl hused), hr.rest.initproc ▸ horigin, ?_, ?_, fun hu => ?_⟩
    · rw [hpid, hpid, hmain, hmain]
      exact hthread
    · rw [hr.rest.initproc, hr.zombie, hr.zombie, hpid, hpid]
      exact hzombie
    · rw [hr.rest.initproc, hpid, hpid]
      exact hstale (fun h => hu ((hr.used q).mpr (.inl h))) fun h => hu ((hr.used q).mpr (.inr h))

/-- The children of `c` go to `init`. -/
theorem left {Z : Slot → Prop} (h : s.Kin g) (hl : s.Left t c Z) (hZ : ∀ q, Z q → s.Member q)
    (hchild : ∀ q r, s.Member q → (s.proc q).parent = some r → r ≠ c → s.initproc ≠ some r → Z r →
      Z q ∧ (s.proc q).pid = (s.proc r).pid) : t.Kin g := by
  have hheir : ∀ q, (t.proc q).parent = s.heir c (s.proc q) := by
    intro q
    obtain ⟨st, hq, -⟩ := hl.proc q
    rw [hq]
    rfl
  refine of_retires h.toGroups hl.retires hZ (fun q hq _ => h.main q hq) (fun i hi => ?_) fun q hq hne => ?_
  · obtain ⟨i', hi', -, hnone, -⟩ := h.init
    obtain rfl : i' = i := Option.some.inj (hi'.symm.trans hi)
    rw [hheir, Kernel.heir, hnone]
    rfl
  · rw [hheir]
    unfold Kernel.heir
    obtain ⟨r, hr, hdesc⟩ := h.parent q hq hne
    rw [hr]
    split
    · obtain ⟨i, hi, -⟩ := h.init
      have hinit := h.descends_init hq hne hi
      exact ⟨i, hi, hinit.used, .inl hi, hinit.thread, fun hnot => absurd hi hnot, fun _ _ => .inl hi⟩
    · next hrc =>
      refine ⟨r, rfl, hdesc.used, hdesc.origin, hdesc.thread, fun hnot hz => ?_, fun hu _ => hdesc.stale hu⟩
      rcases hz with hz | hz
      · exact (hdesc.zombie hnot hz).imp_left .inl
      · exact (hchild q r hq hr (fun heq => hrc (heq ▸ rfl)) hnot hz).imp_left .inr

end Kernel.Kin

end Xv6
