-- SUMMARY: Which thread `thread_join` joins, and who gets the exit value of a thread.
import Mathlib.Data.Fintype.Basic
import Mathlib.Data.Multiset.MapFold
import Xv6.Process.Runs

/-! # Joining threads

`thread_join` looks at the first child in slot order only. It compares the thread id
just to decide whether to wait for that child, and gives the slot back in any case, also
when it is another thread, a forked process or still running. So it joins the thread
that it names exactly if that is the first child. In runs in which this holds whenever
`thread_join` is called, no exit value gets lost and none is delivered twice.
-/

namespace Xv6

open Prog

/-! ## One call -/

/-- In slot `p` there is a thread of `c` with the id `thread`. -/
def Kernel.OwnThread (s : Kernel) (c p : Slot) (thread : Int) : Prop :=
  s.Used p ∧ (s.proc p).parent = some c ∧ (s.proc p).pid = (s.proc c).pid ∧ ((s.proc p).tid : Int) = thread

instance (s : Kernel) (c p : Slot) (thread : Int) : Decidable (s.OwnThread c p thread) :=
  inferInstanceAs (Decidable (_ ∧ _))

/-- The thread that the call names. Who is woken up in `thread_join` has named it before. -/
def Kernel.joinNamed (s : Kernel) (c : Slot) (thread : Int) : Int :=
  match (s.proc c).joining with
  | some r => r.2
  | none => thread

/-- What `thread_join` is for. On success the thread with the given id, which has exited,
    is given back with its exit value, and no other slot changes; if there is no such
    thread, the call fails and nothing changes; else the caller waits for the thread. -/
def Kernel.JoinPost (s : Kernel) (c : Slot) (thread : Int) : Outcome (Int × Option Int) → Kernel → Prop
  | .ret r, t =>
    (r.1 = 0 ∧ ∃ p, s.OwnThread c p thread ∧ (s.proc p).state = .zombie ∧ r.2 = some (s.proc p).retval ∧ ¬ t.Used p ∧
      ∀ q, q ≠ p → ∃ j, t.proc q = { s.proc q with joining := j }) ∨
    (r.1 = -1 ∧ (∀ p, ¬ s.OwnThread c p thread) ∧ t = s)
  | .asleep, t => ∃ p, s.OwnThread c p thread ∧ (s.proc p).state ≠ .zombie ∧ t = s.joining c p thread
  | .gone, _ => False

/-- `thread_join` keeps its promise, and does not stop. -/
def Kernel.JoinsNamed (s : Kernel) (c : Slot) (thread : Int) : Prop :=
  wp (threadJoin c thread) (s.JoinPost c (s.joinNamed c thread)) (fun _ => False) s

/-- The slot at which `thread_join` looks has the thread that it names. A thread that has
    exited has a kernel stack, which is freed. -/
def Kernel.NamesFirst (s : Kernel) (c : Slot) (thread : Int) : Prop :=
  ∀ r ∈ s.joinTarget c thread, s.OwnThread c r.1 r.2 ∧ ((s.proc r.1).state = .zombie → (s.proc r.1).kstack ≠ none)

instance (s : Kernel) (c : Slot) (thread : Int) : Decidable (s.NamesFirst c thread) :=
  inferInstanceAs (Decidable (∀ r ∈ s.joinTarget c thread, _))

namespace Kernel

variable {s t : Kernel} {c p q : Slot} {thread : Int} {k : Page}

theorem joinNamed_of_target {r : Slot × Int} (h : s.joinTarget c thread = some r) : s.joinNamed c thread = r.2 := by
  unfold joinTarget at h
  unfold joinNamed
  cases hj : (s.proc c).joining with
  | some r' =>
    rw [hj] at h
    rw [Option.some.inj h]
  | none =>
    rw [hj] at h
    obtain ⟨p, -, rfl⟩ := Option.map_eq_some_iff.mp h
    rfl

/-- Who has no children has no threads. -/
theorem not_ownThread_of_target (h : s.joinTarget c thread = none) (p : Slot) (t : Int) : ¬ s.OwnThread c p t := by
  rintro ⟨-, hparent, -⟩
  unfold joinTarget at h
  cases hj : (s.proc c).joining with
  | some r =>
    rw [hj] at h
    cases h
  | none =>
    rw [hj] at h
    have hnone := List.find?_eq_none.mp (Option.map_eq_none_iff.mp h) p (mem_slots p)
    exact hnone (decide_eq_true hparent)

theorem joining_inj (h : s.joining c p thread = s.joining c q thread) : p = q := by
  have hc := congrArg (fun u => (u.proc c).joining) h
  simp only [joining, upd_proc_same, Option.some.injEq, Prod.mk.injEq] at hc
  exact hc.1

/-- The slot that is given back is the only one. -/
theorem eq_of_joined (hz : (s.proc q).state = .zombie) (hq : ¬ (s.joined c p k).Used q) : q = p := by
  by_contra hne
  obtain ⟨j, hj⟩ := s.joined_proc_ne (c := c) (k := k) hne
  apply hq
  unfold Used
  rw [hj]
  exact s.used_of_zombie q hz

theorem joinPost_joined (hown : s.OwnThread c p thread) (hz : (s.proc p).state = .zombie) :
    s.JoinPost c thread (.ret (0, some (s.proc p).retval)) (s.joined c p k) :=
  .inl ⟨rfl, p, hown, hz, rfl, drops_joined.unused, fun _ hq => joined_proc_ne hq⟩

theorem joinsNamed_iff : s.JoinsNamed c thread ↔ s.NamesFirst c thread := by
  unfold JoinsNamed NamesFirst
  rw [wp_threadJoin]
  cases htarget : s.joinTarget c thread with
  | none =>
    refine iff_of_true ⟨fun _ => .inr ⟨rfl, fun p => not_ownThread_of_target htarget p _, rfl⟩, fun p t h => ?_⟩ ?_
    · cases h
    · rintro r h
      cases h
  | some r =>
    obtain ⟨p, t⟩ := r
    rw [joinNamed_of_target htarget]
    constructor
    · rintro ⟨-, h⟩ r hr
      obtain rfl := Option.some.inj hr
      have hslot := wp_joinSlot.mp (h p t rfl)
      by_cases hpend : s.Pending c p t
      · obtain ⟨q, hown, -, hq⟩ := hslot.1 hpend
        obtain rfl := joining_inj hq
        exact ⟨hown, fun hz => absurd hz hpend.1⟩
      · obtain ⟨hstop, hret⟩ := hslot.2 hpend
        cases hk : (s.proc p).kstack with
        | none => exact (hstop hk).elim
        | some k =>
          rcases hret k hk with ⟨-, q, hown, hz, -, hgone, -⟩ | ⟨hbad, -⟩
          · obtain rfl := eq_of_joined hz hgone
            exact ⟨hown, fun _ => Option.some_ne_none k⟩
          · cases hbad
    · intro h
      obtain ⟨hown, hstack⟩ := h (p, t) rfl
      refine ⟨fun h => (by cases h), fun p' t' hr => ?_⟩
      obtain ⟨rfl, rfl⟩ := Prod.mk.inj (Option.some.inj hr)
      refine wp_joinSlot.mpr ⟨fun hpend => ⟨p, hown, hpend.1, rfl⟩, fun hpend => ?_⟩
      have hz : (s.proc p).state = .zombie := by
        by_contra hz
        exact hpend ⟨hz, hown.2.2⟩
      exact ⟨fun hk => hstack hz hk, fun k _ => joinPost_joined hown hz⟩

end Kernel

/-! ## Exit values -/

/-- A thread has exited with `value`. -/
structure ExitValue where
  pid : Int
  tid : Int
  value : Int
  deriving DecidableEq

def Proc.exitValue (x : Proc) : ExitValue := ⟨x.pid, x.tid, x.retval⟩

def Kernel.zombies (s : Kernel) : Finset Slot := Finset.univ.filter fun q => (s.proc q).state = .zombie

/-- The exit values that nobody has got yet. -/
def Kernel.pending (s : Kernel) : Multiset ExitValue := s.zombies.val.map fun q => (s.proc q).exitValue

/-- What a call of `thread_join` delivers. -/
def Kernel.delivered (s : Kernel) (c : Slot) (thread : Int) : Outcome (Int × Option Int) → List ExitValue
  | .ret (_, some v) => [⟨(s.proc c).pid, s.joinNamed c thread, v⟩]
  | _ => []

/-- Threads and processes are created, threads exit and are joined, in any order. The
    lists are the exit values and what has been delivered, from the last on. -/
inductive JoinRun (s : Kernel) : List ExitValue → List ExitValue → Kernel → Prop where
  | refl : JoinRun s [] [] s
  | idle {t u : Kernel} {exits joins : List ExitValue} (h : JoinRun s exits joins t) (hidle : Idle t u) :
      JoinRun s exits joins u
  | fork {t u : Kernel} {exits joins : List ExitValue} {c : Slot} {stack dir : Option Page} {r : Int}
      (h : JoinRun s exits joins t) (hready : (SysCall.fork stack dir).Ready t c)
      (hrun : Xv6.fork c stack dir t = .ok (r, u)) : JoinRun s exits joins u
  | create {t u : Kernel} {exits joins : List ExitValue} {c : Slot} {stack : Option Page} {junk : ℚ}
      {r : Int × Option Tid} (h : JoinRun s exits joins t) (hready : (SysCall.threadCreate stack junk).Ready t c)
      (hrun : threadCreate c stack junk t = .ok (r, u)) : JoinRun s exits joins u
  | exit {t u : Kernel} {exits joins : List ExitValue} {c : Slot} {v : Int} (h : JoinRun s exits joins t)
      (hready : (SysCall.threadExit v).Ready t c) (hrun : threadExit c v t = .ok ((), u)) :
      JoinRun s (⟨(t.proc c).pid, (t.proc c).tid, v⟩ :: exits) joins u
  | join {t u : Kernel} {exits joins : List ExitValue} {c : Slot} {thread : Int} {r : Outcome (Int × Option Int)}
      (h : JoinRun s exits joins t) (hready : (SysCall.threadJoin thread).Ready t c) (hnames : t.NamesFirst c thread)
      (hrun : threadJoin c thread t = .ok (r, u)) : JoinRun s exits (t.delivered c thread r ++ joins) u

namespace Kernel

variable {s t : Kernel} {c p : Slot}

theorem mem_zombies {q : Slot} : q ∈ s.zombies ↔ (s.proc q).state = .zombie := by simp [zombies]

theorem pending_congr (hz : ∀ q, (t.proc q).state = .zombie ↔ (s.proc q).state = .zombie)
    (hval : ∀ q, (s.proc q).state = .zombie → (t.proc q).exitValue = (s.proc q).exitValue) : t.pending = s.pending := by
  have hset : t.zombies = s.zombies := by
    ext q
    rw [mem_zombies, mem_zombies, hz]
  unfold pending
  rw [hset]
  exact Multiset.map_congr rfl fun q hq => hval q (mem_zombies.mp (Finset.mem_val.mp hq))

/-- One more has exited. -/
theorem pending_cons (hp : (s.proc p).state ≠ .zombie) (hp' : (t.proc p).state = .zombie)
    (hz : ∀ q, q ≠ p → ((t.proc q).state = .zombie ↔ (s.proc q).state = .zombie))
    (hval : ∀ q, q ≠ p → (s.proc q).state = .zombie → (t.proc q).exitValue = (s.proc q).exitValue) :
    t.pending = (t.proc p).exitValue ::ₘ s.pending := by
  have hset : t.zombies = insert p s.zombies := by
    ext q
    rw [Finset.mem_insert, mem_zombies, mem_zombies]
    by_cases hq : q = p
    · exact iff_of_true (hq ▸ hp') (.inl hq)
    · rw [hz q hq, or_iff_right hq]
  have hnot : p ∉ s.zombies := fun h => hp (mem_zombies.mp h)
  unfold pending
  rw [hset, Finset.insert_val_of_notMem hnot, Multiset.map_cons]
  refine congrArg _ (Multiset.map_congr rfl fun q hq => ?_)
  have hq := mem_zombies.mp (Finset.mem_val.mp hq)
  refine hval q ?_ hq
  rintro rfl
  exact hp hq

theorem pending_threadExit {v : Int} (hc : (s.proc c).state = .running) :
    wp (threadExit c v) (fun _ t => t.pending = ⟨(s.proc c).pid, (s.proc c).tid, v⟩ ::ₘ s.pending) (fun _ => True) s := by
  refine wp_threadExit (fun t _ ht => ?_) (fun _ => trivial) trivial
  have hother : ∀ q, q ≠ c → (s.upd c fun x => { x with retval := v }).proc q = s.proc q := fun q hq =>
    upd_proc_ne _ _ hq
  have hval : (t.proc c).exitValue = ⟨(s.proc c).pid, (s.proc c).tid, v⟩ := by
    obtain ⟨st, hq, -⟩ := ht.proc c
    rw [hq, upd_proc_same]
    rfl
  rw [← hval]
  refine pending_cons ?_ ((ht.retires.zombie c).mpr (.inr rfl)) (fun q hq => ?_) fun q hq _ => ?_
  · rw [hc]
    decide
  · rw [ht.retires.zombie, hother q hq]
    exact ⟨fun h => h.resolve_right hq, .inl⟩
  · obtain ⟨st, hq', -⟩ := ht.proc q
    rw [hq', hother q hq]
    rfl

/-- The value of who is given back is delivered. -/
theorem pending_joined {k : Page} (hz : (s.proc p).state = .zombie) :
    s.pending = (s.proc p).exitValue ::ₘ (s.joined c p k).pending := by
  refine pending_cons ?_ hz (fun q hq => ?_) fun q hq _ => ?_
  · intro hz
    exact drops_joined.unused ((s.joined c p k).used_of_zombie p hz)
  · obtain ⟨j, hj⟩ := s.joined_proc_ne (c := c) (k := k) hq
    rw [hj]
  · obtain ⟨j, hj⟩ := s.joined_proc_ne (c := c) (k := k) hq
    rw [hj]
    rfl

theorem pending_threadJoin {thread : Int} (hc : (s.proc c).state = .running) (hnames : s.NamesFirst c thread) :
    wp (threadJoin c thread) (fun r t => s.pending = s.delivered c thread r + t.pending) (fun _ => True) s := by
  rw [wp_threadJoin]
  refine ⟨fun _ => (Multiset.zero_add _).symm, fun p t htarget => ?_⟩
  obtain ⟨hown, -⟩ := hnames (p, t) htarget
  rw [wp_joinSlot]
  refine ⟨fun _ => ?_, fun hpend => ⟨fun _ => trivial, fun k _ => ?_⟩⟩
  · -- The caller goes to sleep.
    have hlike : s.Like (s.joining c p t) := like_joining hc
    refine (pending_congr (fun q => (hlike.proc q).state.zombie) fun q _ => ?_).symm.trans (Multiset.zero_add _).symm
    unfold joining
    rw [upd_proc]
    split <;> rfl
  · have hz : (s.proc p).state = .zombie := by
      by_contra hz
      exact hpend ⟨hz, hown.2.2⟩
    have hval : (s.proc p).exitValue = ⟨(s.proc c).pid, s.joinNamed c thread, (s.proc p).retval⟩ := by
      rw [joinNamed_of_target htarget, ← hown.2.2.1, ← hown.2.2.2]
      rfl
    rw [pending_joined (c := c) (k := k) hz, hval]
    rfl

/-- A slot that was free is not a zombie, whether it is taken or not, and the others
    have their values as before. -/
theorem pending_claim (hp : s.freeSlot = some p) (hp' : (t.proc p).state ≠ .zombie)
    (hother : ∀ q, q ≠ p → ∃ m sh st pa n, t.proc q = (s.proc q).withShare m sh st pa n) : t.pending = s.pending := by
  have hfree := s.freeSlot_unused hp
  refine pending_congr (fun q => ?_) fun q hz => ?_
  · by_cases hq : q = p
    · rw [hq, hfree]
      exact iff_of_false hp' (by decide)
    · obtain ⟨m, sh, st, pa, n, h⟩ := hother q hq
      rw [h]
      rfl
  · have hq : q ≠ p := by
      rintro rfl
      rw [hfree] at hz
      cases hz
    obtain ⟨m, sh, st, pa, n, h⟩ := hother q hq
    rw [h]
    rfl

theorem pending_spoiled {dir : Option Page} (hp : s.freeSlot = some p) : (s.spoiled p dir).pending = s.pending := by
  refine pending_claim hp (fun hz => drops_spoiled.unused (used_of_zombie _ p hz)) fun q hq => ?_
  rw [spoiled, upd_proc_ne _ _ hq, claimSlot_proc, if_neg hq]
  exact ⟨_, _, _, _, _, rfl⟩

theorem pending_fork {stack dir : Option Page} (hready : (SysCall.fork stack dir).Ready s c) :
    wp (Xv6.fork c stack dir) (fun _ t => t.pending = s.pending) (fun _ => True) s := by
  refine wp_fork (used_of_running hready.running) hready.fresh.1 (fun _ => rfl) (fun p _ hp _ => pending_spoiled hp)
    (fun p k d f hp _ _ _ => pending_claim hp ?_ fun q hq => ?_) fun _ _ _ => trivial
  · rw [forked_born.state]
    decide
  · rw [forked_proc_ne hq]
    exact ⟨_, _, _, _, _, rfl⟩

theorem pending_threadCreate {stack : Option Page} {junk : ℚ} (hready : (SysCall.threadCreate stack junk).Ready s c) :
    wp (threadCreate c stack junk) (fun _ t => t.pending = s.pending) (fun _ => True) s := by
  have hc := used_of_running hready.running
  refine wp_threadCreate hc (fun _ => rfl) (fun p _ hp _ => pending_spoiled hp)
    (fun p k pass f _ _ _ hp _ _ => pending_claim hp ?_ fun q hq => ?_)
    (fun p k pass f _ _ _ hp _ _ => pending_claim hp ?_ fun q hq => ?_) fun _ _ _ => trivial
  · rw [(threadUp_born (ne_freeSlot hc hp)).state]
    decide
  · unfold threadUp
    rw [upd_proc_ne _ _ hq, upd_proc_ne _ _ hq]
    exact s.threaded_proc_ne k pass f hq
  · exact fun hz => drops_threadDown.unused (used_of_zombie _ p hz)
  · unfold threadDown
    rw [upd_proc_ne _ _ hq]
    exact s.threaded_proc_ne k pass f hq

theorem pending_idle (h : Idle s t) : t.pending = s.pending := by
  refine pending_congr (fun q => (h.like.proc q).state.zombie) fun q _ => ?_
  obtain ⟨st, chan, priority, pticks, ptotalticks, pass, hq, -⟩ := h.proc q
  rw [hq]
  rfl

end Kernel

/-- What has been delivered and what is left is what there was and what threads have
    exited with since. -/
theorem JoinRun.pending {s t : Kernel} {exits joins : List ExitValue} (h : JoinRun s exits joins t) :
    (exits : Multiset ExitValue) + s.pending = joins + t.pending := by
  induction h with
  | refl => rfl
  | idle _ hidle ih => rw [ih, Kernel.pending_idle hidle]
  | fork _ hready hrun ih => rw [ih, (Kernel.pending_fork hready).of_run hrun]
  | create _ hready hrun ih => rw [ih, (Kernel.pending_threadCreate hready).of_run hrun]
  | exit _ hready hrun ih =>
    have hexit := (Kernel.pending_threadExit hready.running).of_run hrun
    rw [← Multiset.cons_coe, Multiset.cons_add, ih, hexit, Multiset.add_cons]
  | @join t u exits joins c thread r _ hready hnames hrun ih =>
    have hjoin := (Kernel.pending_threadJoin hready.running hnames).of_run hrun
    rw [ih, hjoin, ← Multiset.coe_add, ← Multiset.add_assoc, Multiset.add_comm (joins : Multiset ExitValue)]

/-- `thread_join` joins the thread that it names exactly if the first child of the caller
    is that thread, or there is no child. In every run of `fork`, `thread_create`,
    `thread_exit` and `thread_join` in which this holds whenever `thread_join` is called,
    each exit value is delivered once, to a join that names its thread, or has not been
    delivered yet. -/
theorem join_named_iff_first (s : Kernel) (c : Slot) (thread : Int) :
    (s.JoinsNamed c thread ↔ s.NamesFirst c thread) ∧
      ∀ t exits joins, JoinRun s exits joins t → (exits : Multiset ExitValue) + s.pending = joins + t.pending :=
  ⟨Kernel.joinsNamed_iff, fun _ _ _ h => h.pending⟩

/-- `init` creates two threads. The first one exits with 7 and is joined. -/
theorem join_named_iff_first_two : ∃ (s t u : Kernel) (x : ExitValue), t.OwnThread 0 1 1 ∧ t.OwnThread 0 2 2 ∧
    t.NamesFirst 0 1 ∧ t.JoinsNamed 0 1 ∧ x.value = 7 ∧ JoinRun s [x] [x] u ∧ (([x] : List ExitValue) : Multiset ExitValue) + s.pending =
      ([x] : List ExitValue) + u.pending := by
  have hplay : (play (fun _ _ _ => True) [(0, .exec (.ok 2 8192)), (0, .threadCreate (some 3) 0),
      (0, .threadCreate (some 4) 0)] (boot 0 1 0)).any (fun s =>
        s.Schedulable 1 ∧ ((s.dispatch 1).proc 1).pid = 1 ∧ ((s.dispatch 1).proc 1).tid = 1 ∧
        (SysCall.threadExit 7).Ready (s.dispatch 1) 1 ∧ (threadExit 1 7).returns (s.dispatch 1) fun _ t =>
          t.Schedulable 0 ∧ (SysCall.threadJoin 1).Ready (t.dispatch 0) 0 ∧ (t.dispatch 0).NamesFirst 0 1 ∧
          (t.dispatch 0).OwnThread 0 1 1 ∧ (t.dispatch 0).OwnThread 0 2 2 ∧
          ((t.dispatch 0).proc 0).pid = 1 ∧ (t.dispatch 0).joinNamed 0 1 = 1 ∧
          (threadJoin 0 1).returns (t.dispatch 0) fun r _ => r = .ret (0, some 7)) = true := by
    decide +kernel
  obtain ⟨s, -, hs⟩ := Run.exists_of_play hplay
  obtain ⟨h₁, hpid, htid, hexit, hs⟩ := of_decide_eq_true hs
  obtain ⟨_, t, ht, hs⟩ := exists_of_returns hs
  obtain ⟨h₀, hjoin, hnames, hown₁, hown₂, hpid', hnamed, hs⟩ := of_decide_eq_true hs
  obtain ⟨r, u, hu, hr⟩ := exists_of_returns hs
  obtain rfl := of_decide_eq_true hr
  have hrun := JoinRun.join (.idle (.exit (.idle .refl (Kernel.idle_dispatch h₁)) hexit ht) (Kernel.idle_dispatch h₀))
    hjoin hnames hu
  unfold Kernel.delivered at hrun
  rw [hpid', hnamed, hpid, htid] at hrun
  exact ⟨s, t.dispatch 0, u, ⟨1, 1, 7⟩, hown₁, hown₂, hnames, (join_named_iff_first _ 0 1).1.mpr hnames, rfl, hrun,
    (join_named_iff_first s 0 1).2 _ _ _ hrun⟩

/-- `init` creates two threads, which exit with 11 and 22. -/
def twoThreads : List (Slot × SysCall) :=
  [(0, .exec (.ok 2 8192)), (0, .threadCreate (some 3) 0), (0, .threadCreate (some 4) 0), (1, .threadExit 11),
    (2, .threadExit 22)]

/-- Joining the second gives the slot and the value of the first. -/
theorem join_other_thread : ∃ s t, Run (fun _ _ _ => True) (boot 0 1 0) s ∧ s.OwnThread 0 1 1 ∧ s.OwnThread 0 2 2 ∧
    (s.proc 2).state = .zombie ∧ (s.proc 2).retval = 22 ∧ threadJoin 0 2 s = .ok (.ret (0, some 11), t) ∧
    ¬ t.Used 1 ∧ (t.proc 2).state = .zombie ∧ ¬ s.JoinsNamed 0 2 := by
  have hplay : (play (fun _ _ _ => True) twoThreads (boot 0 1 0)).any (fun s => s.OwnThread 0 1 1 ∧
      s.OwnThread 0 2 2 ∧ (s.proc 2).state = .zombie ∧ (s.proc 2).retval = 22 ∧ ¬ s.NamesFirst 0 2 ∧
      (threadJoin 0 2).returns s fun r t => r = .ret (0, some 11) ∧ ¬ t.Used 1 ∧ (t.proc 2).state = .zombie) = true := by
    decide +kernel
  obtain ⟨s, hrun, hs⟩ := Run.exists_of_play hplay
  obtain ⟨hown₁, hown₂, hz, hv, hnames, hs⟩ := of_decide_eq_true hs
  obtain ⟨r, t, ht, hr⟩ := exists_of_returns hs
  obtain ⟨rfl, hgone, hstill⟩ := of_decide_eq_true hr
  exact ⟨s, t, hrun, hown₁, hown₂, hz, hv, ht, hgone, hstill, fun h => hnames (Kernel.joinsNamed_iff.mp h)⟩

end Xv6
