-- SUMMARY: The process table together with physical memory: creating processes and threads with the pages that this takes.
import Xv6.Memory.CopyUvm
import Xv6.Process.Runs

/-! # Processes and their pages

The calls on processes of `Process/Calls.lean` are told which pages the allocator returns.
Here they are run beside the memory that the pages come from.
-/

namespace Xv6

open Prog
open Paging (Dir Layout Mem framesFor Strands userPages)

structure Host where
  kernel : Kernel
  mem : Mem

/-- Where the kernel stops. -/
inductive Fault where
  | kernel (e : Halt)
  | memory (e : Paging.Panic)

/-- Kernel code that works on processes and takes pages. -/
abbrev HostProg := Prog Host Fault

/-- Run code that only works on processes. -/
def onKernel {α : Type} (k : KProg α) : HostProg α := fun x =>
  match k x.kernel with
  | .ok (a, s) => .ok (a, { x with kernel := s })
  | .error e => .error (.kernel e)

/-- Run code that only works on pages. -/
def onMem {α : Type} (k : Paging.MProg α) : HostProg α := fun x =>
  match k x.mem with
  | .ok (a, m) => .ok (a, { x with mem := m })
  | .error e => .error (.memory e)

section Rules

variable {α : Type} {x : Host} {Q : α → Host → Prop} {E : Fault → Prop}

@[simp] theorem wp_onKernel {k : KProg α} : wp (onKernel k) Q E x ↔
    wp k (fun a s => Q a { x with kernel := s }) (fun e => E (.kernel e)) x.kernel := by
  unfold wp onKernel
  cases k x.kernel <;> rfl

@[simp] theorem wp_onMem {k : Paging.MProg α} : wp (onMem k) Q E x ↔
    wp k (fun a m => Q a { x with mem := m }) (fun e => E (.memory e)) x.mem := by
  unfold wp onMem
  cases k x.mem <;> rfl

end Rules

namespace Host

/-- Create a new process copying `c`, whose directory is `D`. `allocproc` asks for a kernel
    stack when it has found a slot. If there is no copy of `D` it is given back. -/
def fork (L : Layout) (D : Dir) (c : Slot) : HostProg Int := do
  let s := (← get).kernel
  let stack ← if s.freeSlot = none then pure none else onMem Paging.kalloc
  match stack with
  | none => onKernel (Xv6.fork c none none)
  | some k => do
    match ← onMem (Paging.copyuvm L D (s.proc c).sz) with
    | none => do
      onMem (Paging.kfree L k)
      onKernel (Xv6.fork c (some k) none)
    | some d => onKernel (Xv6.fork c (some k) (some d.frame))

/-- Create a thread of `c`. -/
def threadCreate (c : Slot) (junk : ℚ) : HostProg (Int × Option Tid) := do
  let s := (← get).kernel
  let stack ← if (s.proc c).isThread ∨ s.freeSlot = none then pure none else onMem Paging.kalloc
  onKernel (Xv6.threadCreate c stack junk)

/-- Slot `c` is running in the directory `D`. -/
structure Caller (L : Layout) (D : Dir) (c : Slot) (x : Host) : Prop where
  running : (x.kernel.proc c).state = .running
  sound : x.mem.Sound L
  fresh : ∀ f ∈ x.mem.free, f ∉ x.kernel.live
  size : (x.kernel.proc c).sz ≤ KERNBASE
  present : ∀ p, p * PGSIZE < (x.kernel.proc c).sz → (D.pte p).Present

/-- The pages that `fork` takes: a kernel stack, the directory with 64 page tables for the
    kernel, and the copies with their page tables. -/
def forkPages (x : Host) (c : Slot) : Nat :=
  1 + framesFor (pageCount (x.kernel.proc c).sz)

/-- A page is lost in `copyuvm`, called with one page less. -/
def Loses (x : Host) (c : Slot) : Prop := Strands (pageCount (x.kernel.proc c).sz) (x.mem.free.length - 1)

/-- The first frame of a new thread can be pushed. -/
def CanPush (x : Host) (c : Slot) : Prop :=
  x.kernel.canPush (x.kernel.proc c).pgdir ((x.kernel.stackTop c (x.kernel.freeTid.getD 0) + (2 ^ 32 - 8)) % 2 ^ 32) = true

/-- How `fork` ends. -/
inductive Forked (x : Host) (c : Slot) : Int → Host → Prop where
  | full (hfull : x.kernel.freeSlot = none) : Forked x c (-1) x
  | spoiled {p dir m'} (hp : x.kernel.freeSlot = some p) (hshort : x.mem.free.length < x.forkPages c)
      (hfree : (¬ x.Loses c ∧ m'.free.Perm x.mem.free) ∨ (x.Loses c ∧ x.mem.free.length = m'.free.length + 1)) :
      Forked x c (-1) ⟨x.kernel.spoiled p dir, m'⟩
  | forked {p k d f m'} (hp : x.kernel.freeSlot = some p) (hroom : x.forkPages c ≤ x.mem.free.length)
      (hrefs : ¬ x.kernel.files.Unreferenced c) : Forked x c x.kernel.nextpid ⟨x.kernel.forked c p k d f, m'⟩

section Creation

variable {L : Layout} {D : Dir} {c : Slot} {x : Host}

theorem wp_fork (h : Caller L D c x) : wp (fork L D c) (Forked x c)
    (fun _ => x.forkPages c ≤ x.mem.free.length ∧ x.kernel.files.Unreferenced c) x := by
  have hcaller := Kernel.used_of_running h.running
  have hpages : pageCount (x.kernel.proc c).sz ≤ userPages := Paging.pageCount_le_userPages.mpr h.size
  have hpres : ∀ q < pageCount (x.kernel.proc c).sz, (D.pte q).Present := fun q hq => h.present q (lt_pageCount.mp hq)
  simp only [fork, wp_bind, wp_get]
  by_cases hfull : x.kernel.freeSlot = none
  · rw [if_pos hfull, wp_bind, wp_pure]
    dsimp only
    rw [wp_onKernel]
    exact Xv6.wp_fork hcaller (fun _ hk => by cases hk) (fun hfull => .full hfull)
      (fun p _ hp => by rw [hfull] at hp; cases hp) (fun _ _ _ _ _ hk => by cases hk) fun _ hd => by cases hd
  rw [if_neg hfull, wp_bind, wp_onMem, Paging.wp_kalloc]
  refine ⟨fun hempty => ?_, fun k rest hfree => ?_⟩
  · -- There is no page for the kernel stack.
    dsimp only
    rw [wp_onKernel]
    refine Xv6.wp_fork hcaller (fun _ hk => by cases hk) (fun hnone => absurd hnone hfull) (fun p _ hp _ => ?_)
      (fun _ _ _ _ _ hk => by cases hk) fun _ hd => by cases hd
    refine .spoiled hp ?_ (.inl ⟨?_, .refl _⟩)
    · rw [hempty, forkPages]
      exact Nat.add_pos_left Nat.one_pos _
    · unfold Loses
      rw [hempty]
      rintro ⟨j, -, hj⟩
      rw [List.length_nil] at hj
      omega
  · have hlen : x.mem.free.length = rest.length + 1 := by rw [hfree, List.length_cons]
    have hk : k ∈ x.mem.free := by simp [hfree]
    have hsub : ∀ f ∈ rest, f ∈ x.mem.free := fun f hf => by simp [hfree, hf]
    have hsound : ({ x.mem with free := rest } : Mem).Sound L :=
      ⟨(List.nodup_cons.mp (hfree ▸ h.sound.nodup)).2, fun f hf => h.sound.valid f (hsub f hf)⟩
    have hstack : ∀ k', some k = some k' → k' ∉ x.kernel.live := fun k' hk' => h.fresh k' (Option.some.inj hk' ▸ hk)
    dsimp only
    rw [wp_bind, wp_onMem]
    refine (Paging.wp_copyuvm hsound hpres).mono
      (fun r m' hr => ?_) fun e he => absurd he.2.1 (not_lt.mpr hpages)
    cases r with
    | none =>
      dsimp only
      rw [wp_bind, wp_onMem]
      refine Paging.wp_kfree (h.sound.valid k hk) ?_
      rw [wp_onKernel]
      refine Xv6.wp_fork hcaller hstack (fun hnone => absurd hnone hfull) (fun p _ hp _ => ?_)
        (fun _ _ _ _ _ _ hd => by cases hd) fun _ hd => by cases hd
      have hshort : rest.length < framesFor (pageCount (x.kernel.proc c).sz) := hr.short
      have hback := hr.free
      rw [Nat.min_eq_left hpages] at hback
      refine .spoiled hp ?_ ?_
      · unfold forkPages
        omega
      · unfold Loses
        rw [hlen, Nat.add_sub_cancel]
        refine hback.imp (fun hb => ⟨hb.1, ?_⟩) fun hb => ⟨hb.1, ?_⟩
        · rw [hfree]
          exact (Multiset.coe_eq_coe.mp hb.2).cons k
        · obtain ⟨f, hf⟩ := hb.2
          have hcard := congrArg Multiset.card hf
          rw [Multiset.card_add, Multiset.card_singleton, Multiset.coe_card, Multiset.coe_card] at hcard
          dsimp only at hcard
          change _ = m'.free.length + 1 + 1
          omega
    | some d =>
      have hroom : x.forkPages c ≤ x.mem.free.length := by
        have := hr.1.length hpages
        unfold forkPages
        dsimp only at this
        omega
      dsimp only
      rw [wp_onKernel]
      exact Xv6.wp_fork hcaller hstack (fun hnone => absurd hnone hfull)
        (fun p _ hp hbad => by rcases hbad with hb | hb <;> cases hb)
        (fun p k' d' f hp _ _ hrefs => .forked hp hroom hrefs) fun _ _ hrefs => ⟨hroom, hrefs⟩

/-- How `thread_create` ends. -/
inductive Created (x : Host) (c : Slot) : Int × Option Tid → Host → Prop where
  | no (hno : (x.kernel.proc c).isThread = true ∨ x.kernel.freeSlot = none) : Created x c (-1, none) x
  | spoiled {p} (hthread : (x.kernel.proc c).isThread = false) (hp : x.kernel.freeSlot = some p)
      (hempty : x.mem.free = []) : Created x c (-1, none) ⟨x.kernel.spoiled p (x.kernel.proc p).pgdir, x.mem⟩
  | up {t y} (hsome : x.mem.free ≠ []) (hpush : x.CanPush c) : Created x c (0, t) y
  | down {p k pass f rest} (hthread : (x.kernel.proc c).isThread = false) (hp : x.kernel.freeSlot = some p)
      (hfree : x.mem.free = k :: rest) (hpush : ¬ x.CanPush c) (hrefs : ¬ x.kernel.files.Unreferenced c) :
      Created x c (-1, none) ⟨(x.kernel.threaded c p k pass f).threadDown p, { x.mem with free := rest }⟩

theorem wp_threadCreate (hc : x.kernel.Used c) (junk : ℚ) : wp (threadCreate c junk) (Created x c)
    (fun _ => x.mem.free ≠ [] ∧ x.kernel.files.Unreferenced c) x := by
  simp only [threadCreate, wp_bind, wp_get]
  by_cases hno : (x.kernel.proc c).isThread = true ∨ x.kernel.freeSlot = none
  · rw [if_pos hno, wp_bind, wp_pure, wp_onKernel]
    exact Xv6.wp_threadCreate hc .no
      (fun p ht hp => hno.elim (fun h => by rw [ht] at h; cases h) fun h => by rw [h] at hp; cases hp)
      (fun _ _ _ _ _ _ _ _ hk => by cases hk) (fun _ _ _ _ _ _ _ _ hk => by cases hk) fun _ hk => by cases hk
  rw [if_neg hno, wp_bind, wp_onMem, Paging.wp_kalloc]
  refine ⟨fun hempty => ?_, fun k rest hfree => ?_⟩
  · rw [wp_onKernel]
    exact Xv6.wp_threadCreate hc (fun h => absurd h hno) (fun p ht hp _ => .spoiled ht hp hempty)
      (fun _ _ _ _ _ _ _ _ hk => by cases hk) (fun _ _ _ _ _ _ _ _ hk => by cases hk) fun _ hk => by cases hk
  · have hsome : x.mem.free ≠ [] := by simp [hfree]
    rw [wp_onKernel]
    refine Xv6.wp_threadCreate hc (fun h => absurd h hno) (fun _ _ _ hk => by cases hk)
      (fun _ _ _ _ _ _ _ _ _ hpush => .up hsome hpush) (fun p k' pass f _ hrefs ht hp hk hpush => ?_)
      fun _ _ hrefs => ⟨hsome, hrefs⟩
    cases hk
    exact .down ht hp hfree (Bool.not_eq_true _ ▸ hpush) hrefs

/-! ## Failed creation -/

/-- From `x` to `y` nothing has changed that a failed call of `c` must not change. -/
structure Undone (c : Slot) (x y : Host) : Prop where
  state : ∀ q, (y.kernel.proc q).state = (x.kernel.proc q).state
  pid : ∀ q, (y.kernel.proc q).pid = (x.kernel.proc q).pid
  parent : ∀ q, (y.kernel.proc q).parent = (x.kernel.proc q).parent
  kstack : ∀ q, (y.kernel.proc q).kstack = (x.kernel.proc q).kstack
  ttable : y.kernel.ttable = x.kernel.ttable
  cntThread : (y.kernel.proc c).cntThread = (x.kernel.proc c).cntThread
  share : (y.kernel.proc c).share = (x.kernel.proc c).share
  stride : (y.kernel.proc c).stride = (x.kernel.proc c).stride
  pass : (y.kernel.proc c).pass = (x.kernel.proc c).pass
  files : ∀ f, (y.kernel.files.ftable f).ref = (x.kernel.files.ftable f).ref
  inodes : y.kernel.files.iref = x.kernel.files.iref
  free : y.mem.free.Perm x.mem.free

theorem Undone.refl (c : Slot) (x : Host) : Undone c x x :=
  ⟨fun _ => rfl, fun _ => rfl, fun _ => rfl, fun _ => rfl, rfl, rfl, rfl, rfl, rfl, fun _ => rfl, rfl, .refl _⟩

/-- To take slot `p` and give it up leaves no trace: it had the pid that is next, and
    there is no thread id to take. -/
def Traceless (x : Host) (p : Slot) : Prop :=
  (x.kernel.proc p).pid = x.kernel.nextpid ∧ (x.kernel.proc p).kstack = none ∧ x.kernel.freeTid = none

theorem undone_spoiled_iff {p : Slot} {dir : Option Page} {m' : Mem} (hc : x.kernel.Used c) (hp : x.kernel.freeSlot = some p) :
    Undone c x ⟨x.kernel.spoiled p dir, m'⟩ ↔ x.Traceless p ∧ m'.free.Perm x.mem.free := by
  have hne := Kernel.ne_freeSlot hc hp
  have hself : (x.kernel.spoiled p dir).proc p =
      { (x.kernel.proc p).embryo x.kernel.nextpid (x.kernel.freeTid.getD 0) with
        pgdir := dir, kstack := none, state := .unused } := by
    rw [Kernel.spoiled, Kernel.upd_proc_same, Kernel.claimSlot_proc, if_pos rfl]
  have hother : ∀ q ≠ p, (x.kernel.spoiled p dir).proc q = x.kernel.proc q := fun q hq => by
    rw [Kernel.spoiled, Kernel.upd_proc_ne _ _ hq, Kernel.claimSlot_proc, if_neg hq]
  constructor
  · intro h
    refine ⟨⟨?_, ?_, ?_⟩, h.free⟩
    · rw [← h.pid p, hself]
      rfl
    · rw [← h.kstack p, hself]
    · cases htid : x.kernel.freeTid with
      | none => rfl
      | some t =>
        have ht := congrFun h.ttable t
        unfold Kernel.spoiled Kernel.claimSlot at ht
        simp only [Kernel.upd_ttable, htid, Function.update_self] at ht
        have hfree : x.kernel.ttable t = false := by simpa using List.find?_some htid
        rw [hfree] at ht
        cases ht
  · rintro ⟨⟨hpid, hkstack, htid⟩, hfree⟩
    have hall : ∀ (q : Slot) {α : Type} (g : Proc → α), (q = p → g ((x.kernel.spoiled p dir).proc p) = g (x.kernel.proc p)) →
        g ((x.kernel.spoiled p dir).proc q) = g (x.kernel.proc q) := by
      intro q α g hg
      by_cases hq : q = p
      · rw [hq]
        exact hg hq
      · rw [hother q hq]
    have hcaller := hother c hne
    refine ⟨fun q => hall q Proc.state fun _ => ?_, fun q => hall q Proc.pid fun _ => ?_,
      fun q => hall q Proc.parent fun _ => ?_, fun q => hall q Proc.kstack fun _ => ?_, ?_,
      congrArg Proc.cntThread hcaller, congrArg Proc.share hcaller, congrArg Proc.stride hcaller,
      congrArg Proc.pass hcaller, fun _ => rfl, rfl, hfree⟩
    · rw [hself, Kernel.freeSlot_unused _ hp]
    · rw [hself, hpid]
      rfl
    · rw [hself]
      rfl
    · rw [hself, hkstack]
    · unfold Kernel.spoiled Kernel.claimSlot
      simp only [htid]
      rfl

/-- `fork` undoes what it did when it fails. -/
def ForkOk (x : Host) (c : Slot) : Prop :=
  ∀ p, x.kernel.freeSlot = some p →
    if x.forkPages c ≤ x.mem.free.length then x.kernel.nextpid ≠ -1 ∨ x.kernel.files.Unreferenced c
    else x.Traceless p ∧ ¬ x.Loses c

/-- `thread_create` undoes what it did when it fails. -/
def CreateOk (x : Host) (c : Slot) : Prop :=
  (x.kernel.proc c).isThread = false → ∀ p, x.kernel.freeSlot = some p →
    if x.mem.free = [] then x.Traceless p else x.CanPush c ∨ x.kernel.files.Unreferenced c

theorem fork_undone_iff (h : Caller L D c x) :
    wp (fork L D c) (fun r y => r = -1 → Undone c x y) (fun _ => True) x ↔ x.ForkOk c := by
  have hc := Kernel.used_of_running h.running
  constructor
  · intro hprop p hp
    have hends := wp_iff_run.mp (wp_fork h)
    cases hrun : fork L D c x with
    | error e =>
      obtain ⟨hroom, hrefs⟩ := hends.2 e hrun
      rw [if_pos hroom]
      exact .inr hrefs
    | ok r =>
      obtain ⟨r, y⟩ := r
      have hend := hends.1 r y hrun
      have hundone : r = -1 → Undone c x y := hprop.of_run hrun
      cases hend with
      | full hfull =>
        rw [hfull] at hp
        cases hp
      | spoiled hp' hshort hfree =>
        obtain rfl := Option.some.inj (hp'.symm.trans hp)
        rw [if_neg (not_le.mpr hshort)]
        obtain ⟨htrace, hperm⟩ := (undone_spoiled_iff hc hp).mp (hundone rfl)
        refine ⟨htrace, fun hloses => ?_⟩
        have hlost := hfree.resolve_left fun hf => hf.1 hloses
        have := hperm.length_eq
        omega
      | @forked p' k d f m' hp' hroom hrefs =>
        obtain rfl := Option.some.inj (hp'.symm.trans hp)
        rw [if_pos hroom]
        refine .inl fun hpid => ?_
        have hstate := (hundone hpid).state p'
        rw [Kernel.freeSlot_unused _ hp'] at hstate
        change ((x.kernel.forked c p' k d f).proc p').state = _ at hstate
        rw [Kernel.forked, Kernel.upd_proc_same] at hstate
        cases hstate
  · intro hok
    refine (wp_fork h).mono (fun r y hend hr => ?_) fun _ _ => trivial
    cases hend with
    | full hfull => exact .refl c x
    | spoiled hp hshort hfree =>
      have hcase := hok _ hp
      rw [if_neg (not_le.mpr hshort)] at hcase
      exact (undone_spoiled_iff hc hp).mpr ⟨hcase.1, (hfree.resolve_right fun hf => hcase.2 hf.1).2⟩
    | forked hp hroom hrefs =>
      have hcase := hok _ hp
      rw [if_pos hroom] at hcase
      exact absurd hr (hcase.resolve_right hrefs)

theorem threadCreate_undone_iff {junk : ℚ} (hc : x.kernel.Used c) :
    wp (threadCreate c junk) (fun r y => r.1 = -1 → Undone c x y) (fun _ => True) x ↔ x.CreateOk c := by
  constructor
  · intro hprop hthread p hp
    have hends := wp_iff_run.mp (wp_threadCreate hc junk)
    cases hrun : threadCreate c junk x with
    | error e =>
      obtain ⟨hsome, hrefs⟩ := hends.2 e hrun
      rw [if_neg hsome]
      exact .inr hrefs
    | ok r =>
      obtain ⟨r, y⟩ := r
      have hend := hends.1 r y hrun
      have hundone : r.1 = -1 → Undone c x y := hprop.of_run hrun
      cases hend with
      | no hno =>
        rcases hno with hno | hno
        · rw [hthread] at hno
          cases hno
        · rw [hno] at hp
          cases hp
      | spoiled _ hp' hempty =>
        obtain rfl := Option.some.inj (hp'.symm.trans hp)
        rw [if_pos hempty]
        exact ((undone_spoiled_iff hc hp).mp (hundone rfl)).1
      | up hsome hpush =>
        rw [if_neg hsome]
        exact .inl hpush
      | @down p' k pass f rest _ hp' hfree hpush hrefs =>
        -- The kernel stack is not given back.
        have hlen := (hundone rfl).free.length_eq
        rw [hfree, List.length_cons] at hlen
        dsimp only at hlen
        omega
  · intro hok
    refine (wp_threadCreate hc junk).mono (fun r y hend hr => ?_) fun _ _ => trivial
    cases hend with
    | no hno => exact .refl c x
    | spoiled hthread hp hempty =>
      have hcase := hok hthread _ hp
      rw [if_pos hempty] at hcase
      exact (undone_spoiled_iff hc hp).mpr ⟨hcase, .refl _⟩
    | up => cases hr
    | down hthread hp hfree hpush hrefs =>
      have hcase := hok hthread _ hp
      rw [if_neg (by simp [hfree])] at hcase
      exact absurd hpush (not_not.mpr (hcase.resolve_right hrefs))

/-- Failed creation is undone just in these cases: there was no slot, the call does not
    fail, or the slot that was given up happens to look as before. -/
theorem failed_creation_undone_iff (L : Layout) (D : Dir) (c : Slot) (junk : ℚ) (x : Host) (h : Caller L D c x) :
    (wp (fork L D c) (fun r y => r = -1 → Undone c x y) (fun _ => True) x ↔ x.ForkOk c) ∧
    (wp (threadCreate c junk) (fun r y => r.1 = -1 → Undone c x y) (fun _ => True) x ↔ x.CreateOk c) :=
  ⟨fork_undone_iff h, threadCreate_undone_iff (Kernel.used_of_running h.running)⟩

end Creation

/-- The first process is running, in its directory of one page, and `n` pages are free. -/
def first (n : Nat) : Host where
  kernel := (boot 3000 2000 0).dispatch 0
  mem := Paging.memWith n

/-- Every slot is like the first one. -/
def crowded : Host :=
  { first 80 with kernel := { (first 80).kernel with proc := fun _ => (first 80).kernel.proc 0 } }

theorem crowded_caller : Caller Paging.smallLayout Paging.onePage 0 crowded where
  running := rfl
  sound := Paging.memWith_sound (by decide)
  fresh f hf hlive := by
    obtain ⟨-, hlt⟩ := List.mem_range'_1.mp hf
    have hpages : f = 2000 ∨ f = 3000 := by simpa [crowded, first, Kernel.dispatch] using hlive
    rcases hpages with rfl | rfl <;> omega
  size := show PGSIZE ≤ KERNBASE by decide
  present p hp := Paging.onePage_pte_present (Paging.lt_one_of_mul_PGSIZE_lt hp)

/-- There is memory for a process and for a thread, but no slot: both calls fail. -/
theorem failed_creation_undone_crowded :
    (∃ y, fork Paging.smallLayout Paging.onePage 0 crowded = .ok (-1, y) ∧ Undone 0 crowded y) ∧
    ∃ y, threadCreate 0 0 crowded = .ok ((-1, none), y) ∧ Undone 0 crowded y := by
  have hfull : crowded.kernel.freeSlot = none := by decide +kernel
  obtain ⟨hfork, hcreate⟩ :=
    failed_creation_undone_iff Paging.smallLayout Paging.onePage 0 0 crowded crowded_caller
  have hforkOk : crowded.ForkOk 0 := fun p hp => by rw [hfull] at hp; cases hp
  have hcreateOk : crowded.CreateOk 0 := fun _ p hp => by rw [hfull] at hp; cases hp
  constructor
  · have hret : (fork Paging.smallLayout Paging.onePage 0).returns crowded (fun r _ => r = -1) = true := by decide +kernel
    obtain ⟨r, y, hrun, hr⟩ := exists_of_returns hret
    cases of_decide_eq_true hr
    exact ⟨y, hrun, (hfork.mpr hforkOk).of_run hrun rfl⟩
  · have hret : (threadCreate 0 0).returns crowded (fun r _ => r = (-1, none)) = true := by decide +kernel
    obtain ⟨r, y, hrun, hr⟩ := exists_of_returns hret
    cases of_decide_eq_true hr
    exact ⟨y, hrun, (hcreate.mpr hcreateOk).of_run hrun rfl⟩

/-- Without a page for the kernel stack `fork` takes a thread id for good. With one page,
    `thread_create` takes it and fails, since there are no stacks for threads yet: the
    page is lost, and the thread is counted. -/
theorem failed_creation_leaves_traces :
    (∃ y, fork Paging.smallLayout Paging.onePage 0 (first 0) = .ok (-1, y) ∧ y.kernel.ttable ≠ (first 0).kernel.ttable) ∧
    ∃ y, threadCreate 0 0 (first 1) = .ok ((-1, none), y) ∧ ¬ y.mem.free.Perm (first 1).mem.free ∧
      (y.kernel.proc 0).cntThread = ((first 1).kernel.proc 0).cntThread + 1 := by
  constructor
  · have hret : (fork Paging.smallLayout Paging.onePage 0).returns (first 0)
        (fun r y => r = -1 ∧ y.kernel.ttable 1 = true) = true := by decide +kernel
    obtain ⟨r, y, hrun, hy⟩ := exists_of_returns hret
    obtain ⟨rfl, htid⟩ := of_decide_eq_true hy
    refine ⟨y, hrun, fun heq => ?_⟩
    rw [heq] at htid
    cases htid
  · have hret : (threadCreate 0 0).returns (first 1)
        (fun r y => r = (-1, none) ∧ y.mem.free = [] ∧ (y.kernel.proc 0).cntThread = 2) = true := by decide +kernel
    obtain ⟨r, y, hrun, hy⟩ := exists_of_returns hret
    obtain ⟨rfl, hfree, hcnt⟩ := of_decide_eq_true hy
    refine ⟨y, hrun, fun hperm => ?_, hcnt⟩
    rw [hfree] at hperm
    exact absurd hperm.length_eq (by decide)

end Host

end Xv6
