-- SUMMARY: Exited slots are given back once.
import Xv6.Process.Directories

/-! # Reaping

`wait`, `killsamepid` and `thread_join` give slots back. `wait` looks at a child after
`killsamepid` may have given it back already, and tells from `isThread` and
`isMainThread` whether it has. A main thread that was replaced by `exec` of another
thread has neither flag, and `wait` frees its kernel stack a second time.
-/

namespace Xv6

open Prog

/-- What reaping relies on, beside the pages. -/
structure Kernel.ReapInv (s : Kernel) : Prop extends s.PageInv where
  stack_some : ∀ q, s.Used q → (s.proc q).kstack ≠ none
  used_pos : ∀ q, s.Used q → 0 < (s.proc q).pid
  one_main : ∀ p q, s.Used p → (s.proc p).isMainThread = true → s.Used q → (s.proc q).isMainThread = true →
    (s.proc p).pid = (s.proc q).pid → p = q
  refund_lt : ∀ n ∈ s.refunds, n < s.nextpid
  refund_gone : ∀ n ∈ s.refunds, ∀ q, s.Used q → (s.proc q).isMainThread = true → (s.proc q).pid ≠ n
  refund_once : s.refunds.Nodup

namespace Kernel.ReapInv

variable {s t : Kernel} {c p : Slot}

theorem like (h : s.ReapInv) (hl : s.Like t) : t.ReapInv := by
  have hused := hl.used
  have hpid : ∀ q, (t.proc q).pid = (s.proc q).pid := fun q => (hl.proc q).pid
  have hstack : ∀ q, (t.proc q).kstack = (s.proc q).kstack := fun q => (hl.proc q).kstack
  have hmain : ∀ q, (t.proc q).isMainThread = (s.proc q).isMainThread := fun q => (hl.proc q).isMainThread
  have hrefunds := hl.refunds
  have hnext := hl.nextpid
  obtain ⟨hpage, _, _, _, _, _, _⟩ := h
  refine ⟨hpage.like hl, ?_, ?_, ?_, ?_, ?_, ?_⟩
  all_goals grind

/-- Zombies were in use before. -/
theorem retire (h : s.ReapInv) {Z : Slot → Prop} (hr : s.Retires t Z) (hZ : ∀ q, Z q → s.Used q)
    (hpage : t.PageInv) : t.ReapInv := by
  have hused : ∀ q, t.Used q ↔ s.Used q := fun q => by
    rw [hr.used]
    exact ⟨fun h => h.elim id (hZ q), .inl⟩
  have hpid : ∀ q, (t.proc q).pid = (s.proc q).pid := fun q => (hr.same q).pid
  have hstack : ∀ q, (t.proc q).kstack = (s.proc q).kstack := fun q => (hr.same q).kstack
  have hmain : ∀ q, (t.proc q).isMainThread = (s.proc q).isMainThread := fun q => (hr.same q).isMainThread
  have hrefunds := hr.rest.refunds
  have hnext := hr.rest.nextpid
  clear hr
  obtain ⟨_, _, _, _, _, _, _⟩ := h
  refine ⟨hpage, ?_, ?_, ?_, ?_, ?_, ?_⟩
  all_goals grind

/-- A process gets a new image and stays, or becomes, the only main thread with its pid. -/
theorem image (h : s.ReapInv) {dir : Page} (hr : s.Reimages t c dir)
    (hc : (t.proc c).isMainThread = true → (s.proc c).isMainThread = true ∨
      ∃ m, m ≠ c ∧ s.Used m ∧ (s.proc m).isMainThread = true ∧ (s.proc m).pid = (s.proc c).pid ∧
        (t.proc m).isMainThread = false)
    (hpage : t.PageInv) : t.ReapInv := by
  have hused := hr.used
  have hpid := hr.pid_eq
  have hstack := hr.kstack_eq
  have hmain : ∀ q, q ≠ c → (t.proc q).isMainThread = true → (s.proc q).isMainThread = true := fun q hq =>
    (hr.ne q hq).2.2.2.2.2
  have hrefunds := hr.refunds
  have hnext := hr.nextpid
  clear hr
  obtain ⟨_, _, _, hone, _, hgone, _⟩ := h
  refine ⟨hpage, ?_, ?_, ?_, ?_, ?_, ?_⟩
  all_goals grind

/-- Who loses a slot may have its share returned, if it was a main thread. -/
theorem drop (h : s.ReapInv) (hd : s.Drops t p) (hnext : s.nextpid ≤ t.nextpid)
    (hrefunds : t.refunds = s.refunds ∨
      s.Used p ∧ (s.proc p).isMainThread = true ∧ t.refunds = (s.proc p).pid :: s.refunds)
    (hpage : t.PageInv) : t.ReapInv := by
  have hused : ∀ q, q ≠ p → (t.Used q ↔ s.Used q) := fun q hq => (hd.other q hq).state.used
  have hpid : ∀ q, q ≠ p → (t.proc q).pid = (s.proc q).pid := fun q hq => (hd.other q hq).pid
  have hstack : ∀ q, q ≠ p → (t.proc q).kstack = (s.proc q).kstack := fun q hq => (hd.other q hq).kstack
  have hmain : ∀ q, q ≠ p → (t.proc q).isMainThread = (s.proc q).isMainThread := fun q hq =>
    (hd.other q hq).isMainThread
  have hunused := hd.unused
  have hlt := h.pid_lt p
  clear hd
  obtain ⟨_, _, _, _, _, _, _⟩ := h
  refine ⟨hpage, ?_, ?_, ?_, ?_, ?_, ?_⟩
  all_goals grind

/-- A new process or thread. -/
theorem born (h : s.ReapInv) {pid : Int} {dir : Option Page} {k : Page} {tid : Tid} {thread : Bool} {usz : Nat}
    (hother : ∀ q, q ≠ p → (s.proc q).Like (t.proc q))
    (hb : (t.proc p).Born pid dir k tid thread c usz) (hpos : 0 < pid) (hnew : thread = false → pid = s.nextpid)
    (hnext : s.nextpid ≤ t.nextpid) (hrefunds : t.refunds = s.refunds) (hpage : t.PageInv) : t.ReapInv := by
  have hused : ∀ q, q ≠ p → (t.Used q ↔ s.Used q) := fun q hq => (hother q hq).state.used
  have hpid : ∀ q, q ≠ p → (t.proc q).pid = (s.proc q).pid := fun q hq => (hother q hq).pid
  have hstack : ∀ q, q ≠ p → (t.proc q).kstack = (s.proc q).kstack := fun q hq => (hother q hq).kstack
  have hmain : ∀ q, q ≠ p → (t.proc q).isMainThread = (s.proc q).isMainThread := fun q hq =>
    (hother q hq).isMainThread
  have hlt := h.pid_lt
  obtain ⟨-, hbpid, -, hbstack, -, -, hbmain, -, -⟩ := hb
  clear hother
  obtain ⟨_, _, _, _, _, _, _⟩ := h
  refine ⟨hpage, ?_, ?_, ?_, ?_, ?_, ?_⟩
  all_goals grind

theorem free (h : s.ReapInv) {d : Page} (hpage : (s.freeDir p d).PageInv) : (s.freeDir p d).ReapInv := by
  obtain ⟨_, h₁, h₂, h₃, h₄, h₅, h₆⟩ := h
  exact ⟨hpage, h₁, h₂, h₃, h₄, h₅, h₆⟩

end Kernel.ReapInv

/-! ## The condition -/

namespace Kernel

variable (s : Kernel) (c : Slot)

/-- No free slot has the pid of `c`; a failed `thread_create` leaves such slots behind. -/
def NoRemnant : Prop := ∀ q, ¬ s.Used q → (s.proc q).pid ≠ (s.proc c).pid

/-- The parent of `c` is the main thread of its process. -/
def UnderMain : Prop :=
  ∃ m, (s.proc c).parent = some m ∧ s.Used m ∧ (s.proc m).isMainThread = true ∧ (s.proc m).pid = (s.proc c).pid

/-- Every exited child of `c` is a main thread or a thread, and not a main thread that
    was replaced. -/
def NoReplaced : Prop :=
  ∀ q, (s.proc q).parent = some c → (s.proc q).state = .zombie → (s.proc q).isMainThread = false →
    (s.proc q).isThread = true

/-- If `thread_join` gives back a slot, its thread has exited and has no share in the CPU. -/
def JoinsExited (thread : Int) : Prop :=
  ∀ r ∈ s.joinTarget c thread, ¬ s.Pending c r.1 r.2 → (s.proc r.1).state = .zombie ∧ (s.proc r.1).isMLFQ = true

instance : Decidable (s.NoRemnant c) := inferInstanceAs (Decidable (∀ _, _))

instance : Decidable (s.UnderMain c) := inferInstanceAs (Decidable (∃ _, _))

instance : Decidable (s.NoReplaced c) := inferInstanceAs (Decidable (∀ _, _))

instance (thread : Int) : Decidable (s.JoinsExited c thread) := inferInstanceAs (Decidable (∀ _ ∈ _, _))

end Kernel

/-- The calls that reap, and those that make others zombies, are made where slots are
    what they seem. -/
def ReapOk (s : Kernel) (c : Slot) : SysCall → Prop
  | .exit => s.NoRemnant c
  | .exec (.ok _ _) => s.NoRemnant c ∧ ((s.proc c).isThread = true → s.UnderMain c)
  | .wait => s.NoReplaced c
  | .threadJoin thread => s.JoinsExited c thread
  | call => DirOk s c call

instance (s : Kernel) (c : Slot) : (call : SysCall) → Decidable (ReapOk s c call)
  | .exit => inferInstanceAs (Decidable (s.NoRemnant c))
  | .exec (.ok _ _) => inferInstanceAs (Decidable (s.NoRemnant c ∧ ((s.proc c).isThread = true → s.UnderMain c)))
  | .wait => inferInstanceAs (Decidable (s.NoReplaced c))
  | .threadJoin thread => inferInstanceAs (Decidable (s.JoinsExited c thread))
  | .exec .bad | .exec (.short _ _ _) => inferInstanceAs (Decidable True)
  | .fork stack dir => inferInstanceAs (Decidable (DirOk s c (.fork stack dir)))
  | .threadCreate stack junk => inferInstanceAs (Decidable (DirOk s c (.threadCreate stack junk)))
  | .threadExit v => inferInstanceAs (Decidable (DirOk s c (.threadExit v)))
  | .sbrk n room => inferInstanceAs (Decidable (DirOk s c (.sbrk n room)))
  | .kill _ | .setCpuShare _ | .file _ => inferInstanceAs (Decidable True)

theorem ReapOk.dirOk {s : Kernel} {c : Slot} {call : SysCall} (h : ReapOk s c call) : DirOk s c call := by
  cases call with
  | exec img => trivial
  | exit | wait | threadJoin _ => trivial
  | _ => exact h

theorem Kernel.NoRemnant.used {s t : Kernel} {c q : Slot} {dir : Page} (h : s.NoRemnant c) (hr : s.Reimages t c dir)
    (hpid : (t.proc q).pid = (t.proc c).pid) : t.Used q := by
  rw [hr.pid_eq, hr.pid_eq] at hpid
  rw [hr.used]
  by_contra hu
  exact h q hu hpid

theorem keeps_reapInv : Keeps ReapOk Kernel.ReapInv where
  like h hl _ := h.like hl
  setCpuShare h _ _ _ := wp_setCpuShare_like.mono (fun _ _ hl => h.like hl) fun _ _ => trivial
  forkSpoiled h hc hp hok hno :=
    have hpage := keeps_pageInv.forkSpoiled h.toPageInv hc hp hok.dirOk hno
    h.drop Kernel.drops_spoiled (Kernel.claims_spoiled.nextpid_eq h.nextpid_pos hok.dirOk ▸ by omega) (.inl rfl) hpage
  createSpoiled h hc hnot hp hok :=
    have hpage := keeps_pageInv.createSpoiled h.toPageInv hc hnot hp hok.dirOk
    h.drop Kernel.drops_spoiled (Kernel.claims_spoiled.nextpid_eq h.nextpid_pos hok.dirOk ▸ by omega) (.inl rfl) hpage
  forked {s c p k d f} h hc hp hk hd hkd hok := by
    have hpage := keeps_pageInv.forked (f := f) h.toPageInv hc hp hk hd hkd hok.dirOk
    refine h.born (fun q hq => ?_) Kernel.forked_born h.nextpid_pos (fun _ => rfl) ?_ rfl hpage
    · rw [Kernel.forked_proc_ne hq]
      exact .refl _
    · rw [Kernel.claims_forked.nextpid_eq h.nextpid_pos hok.dirOk]
      omega
  threadUp {s c p k junk pass f} h hc hnot hp hk hok := by
    have hpage := @Keeps.threadUp _ _ keeps_pageInv s c p k junk pass f h.toPageInv hc hnot hp hk hok.dirOk
    have hcp := Kernel.ne_freeSlot (Kernel.used_of_running hc) hp
    refine h.born (fun q hq => Kernel.threadUp_like hq) (Kernel.threadUp_born hcp)
      (h.used_pos c (Kernel.used_of_running hc)) (fun h => nomatch h) ?_ Kernel.claims_threadUp.refunds hpage
    rw [Kernel.claims_threadUp.nextpid_eq h.nextpid_pos hok.dirOk]
    omega
  threadDown {s c p k junk pass f} h hc hnot hp hk hpush hok := by
    have hpage := @Keeps.threadDown _ _ keeps_pageInv s c p k junk pass f h.toPageInv hc hnot hp hk hpush
      hok.dirOk
    refine h.drop Kernel.drops_threadDown ?_ (.inl Kernel.claims_threadDown.refunds) hpage
    rw [Kernel.claims_threadDown.nextpid_eq h.nextpid_pos hok.dirOk]
    omega
  exited h hc hne hok ht := by
    refine h.retire ht.retires (fun q hq => ?_) (keeps_pageInv.exited h.toPageInv hc hne trivial ht)
    by_contra hu
    exact hok q hu hq
  threadExited {s t c v} h hc hne hok ht := by
    have hlike : s.Like (s.upd c fun x => { x with retval := v }) :=
      .of_upd ⟨.inl rfl, rfl, rfl, rfl, rfl, rfl, rfl, rfl, rfl⟩
    refine (h.like hlike).retire ht.retires (fun q hq => ?_) (keeps_pageInv.threadExited h.toPageInv hc hne hok.dirOk ht)
    rw [hlike.used]
    exact hq ▸ Kernel.used_of_running hc
  imaged {s c dir usz n} h hc hfit hn hok := by
    have hpage := keeps_pageInv.imaged h.toPageInv hc hfit hn hok.dirOk
    refine h.image Kernel.reimages_imaged (fun hm => .inl ?_) hpage
    rwa [Kernel.imaged_proc_same] at hm
  execed {s t c dir old usz} h hc hnot hold hfit hok hz := by
    have hpage := keeps_pageInv.execed h.toPageInv hc hnot hold hfit hok.dirOk hz
    have hr : s.Reimages (s.execed c dir usz) c dir := Kernel.reimages_execed
    have hc := Kernel.schedulable_of_running hc
    have him := h.image hr (fun hm => .inl (by rwa [Kernel.execed_proc_same] at hm)) (h.toPageInv.image hr hc hfit.1)
    exact (him.retire hz.retires (fun q hq => hok.1.used hr hq.1) (h.zombify hc hr hfit.1 hz)).free hpage
  promoted {s t c m dir old usz} h hc ht hold hparent hfit hok hz := by
    have hpage := keeps_pageInv.promoted h.toPageInv hc ht hold hparent hfit hok.dirOk hz
    have hr : s.Reimages (s.promoted c m dir usz) c dir := Kernel.reimages_promoted
    have hc := Kernel.schedulable_of_running hc
    obtain ⟨m', hm', hused, hmain, hpid⟩ := hok.2 ht
    obtain rfl : m = m' := Option.some.inj (hparent.symm.trans hm')
    have him : (s.promoted c m dir usz).ReapInv := by
      refine h.image hr (fun _ => ?_) (h.toPageInv.image hr hc hfit.1)
      by_cases hmc : m = c
      · exact .inl (hmc ▸ hmain)
      · exact .inr ⟨m, hmc, hused, hmain, hpid, by rw [Kernel.promoted_proc_main hmc]; rfl⟩
    exact (him.retire hz.retires (fun q hq => hok.1.used hr hq.1) (h.zombify hc hr hfit.1 hz)).free hpage
  reaped h hz hm hk := h.drop Kernel.drops_reaped le_rfl (.inl rfl) (keeps_pageInv.reaped h.toPageInv hz hm hk)
  buried {s p k d} h hz hm hk hd := by
    have hpage := keeps_pageInv.buried h.toPageInv hz hm hk hd
    refine (h.drop Kernel.drops_buried ?_ ?_ (h.toPageInv.bury_drop hk)).free hpage
    · unfold Kernel.buried Kernel.reaped
      rw [Kernel.refunded_eq]
      exact le_rfl
    · unfold Kernel.buried Kernel.reaped Kernel.refunded
      split
      · exact .inl rfl
      · exact .inr ⟨s.used_of_zombie p hz, hm, rfl⟩
  joined {s c p k thread t} h hc ht hp hk hok := by
    have hpage := keeps_pageInv.joined h.toPageInv hc ht hp hk trivial
    have hm : (s.proc p).isMLFQ = true := (hok (p, t) ht hp).2
    refine h.drop Kernel.drops_joined ?_ (.inl ?_) hpage
    · unfold Kernel.joined Kernel.reaped
      rw [Kernel.refunded_eq]
      exact le_rfl
    · unfold Kernel.joined Kernel.reaped Kernel.refunded
      rw [if_pos hm]
      rfl

/-! ## What one call gives back -/

/-- From `s` to `t` slots are given back, each zombie at most once, and with a kernel
    stack that was allocated. -/
structure Kernel.ReapsOnce (s t : Kernel) : Prop where
  reaps : ∃ new, t.reaps = new ++ s.reaps ∧
    (∀ r ∈ new, r.state = .zombie ∧ r.live = true ∧ r.kstack = (s.proc r.slot).kstack) ∧
    ∀ p, (new.map Reap.slot).count p = if (s.proc p).state = .zombie ∧ ¬ t.Used p then 1 else 0
  zombie : ∀ p, s.Used p → ¬ t.Used p → (s.proc p).state = .zombie

/-- Beside, the slots that are still there are as they were. -/
structure Kernel.Reaping (s t : Kernel) : Prop extends s.ReapsOnce t where
  unchanged : ∀ p, t.Used p → (t.proc p).state = (s.proc p).state ∧ (t.proc p).kstack = (s.proc p).kstack

section Reaping

variable {s t u : Kernel} {c p : Slot} {k : Page}

/-- Nothing is given back. -/
theorem Kernel.ReapsOnce.of_none (h : t.reaps = s.reaps) (hused : ∀ q, s.Used q → t.Used q) : s.ReapsOnce t := by
  refine ⟨⟨[], h, fun r hr => (List.not_mem_nil hr).elim, fun p => ?_⟩, fun p hp hn => absurd (hused p hp) hn⟩
  rw [if_neg]
  · rfl
  · exact fun h => h.2 (hused p (s.used_of_zombie p h.1))

theorem Kernel.Reaping.refl (s : Kernel) : s.Reaping s :=
  ⟨.of_none rfl fun _ h => h, fun _ _ => ⟨rfl, rfl⟩⟩

/-- Nothing more is given back. -/
theorem Kernel.ReapsOnce.then (h : s.ReapsOnce t) (hreaps : u.reaps = t.reaps) (hused : ∀ q, u.Used q ↔ t.Used q) :
    s.ReapsOnce u := by
  obtain ⟨⟨new, hnew, hall, hcount⟩, hz⟩ := h
  refine ⟨⟨new, hreaps.trans hnew, hall, fun p => ?_⟩, fun p => ?_⟩
  · simp only [hcount, hused]
  · rw [hused]
    exact hz p

theorem Kernel.Reaping.then (h : s.Reaping t) (hreaps : u.reaps = t.reaps)
    (hsame : ∀ q, (u.proc q).state = (t.proc q).state ∧ (u.proc q).kstack = (t.proc q).kstack) : s.Reaping u := by
  have hused : ∀ q, u.Used q ↔ t.Used q := fun q => by
    unfold Used
    rw [(hsame q).1]
  refine ⟨h.toReapsOnce.then hreaps hused, fun q hq => ?_⟩
  rw [(hsame q).1, (hsame q).2]
  exact h.unchanged q ((hused q).mp hq)

/-- One more zombie is given back. -/
theorem Kernel.Reaping.step (h : s.Reaping t) (hd : t.Drops u p)
    (hother : ∀ q, q ≠ p → (u.proc q).state = (t.proc q).state ∧ (u.proc q).kstack = (t.proc q).kstack)
    (hz : (t.proc p).state = .zombie) (hk : (t.proc p).kstack = some k) {pid : Int}
    (hreaps : u.reaps = { slot := p, state := .zombie, pid := pid, kstack := some k, live := true } :: t.reaps) :
    s.Reaping u := by
  have hp := t.used_of_zombie p hz
  obtain ⟨hstate, hstack⟩ := h.unchanged p hp
  have hzs : (s.proc p).state = .zombie := hstate.symm.trans hz
  have hused : ∀ q, q ≠ p → (u.Used q ↔ t.Used q) := fun q hq => by
    unfold Used
    rw [(hother q hq).1]
  obtain ⟨⟨new, hnew, hall, hcount⟩, hzombie⟩ := h.toReapsOnce
  refine ⟨⟨⟨_ :: new, by rw [hreaps, hnew]; rfl, fun e he => ?_, fun q => ?_⟩, fun q hq hn => ?_⟩, fun q hq => ?_⟩
  · rcases List.mem_cons.mp he with rfl | he
    · exact ⟨rfl, rfl, hk.symm.trans hstack⟩
    · exact hall e he
  · rw [List.map_cons, List.count_cons, hcount]
    by_cases hqp : q = p
    · subst hqp
      simp [hp, hzs, hd.unused]
    · simp [hused q hqp, Ne.symm hqp]
  · by_cases hqp : q = p
    · exact hqp ▸ hzs
    · exact hzombie q hq fun h => hn ((hused q hqp).mpr h)
  · have hqp : q ≠ p := by
      rintro rfl
      exact hd.unused hq
    rw [(hother q hqp).1, (hother q hqp).2]
    exact h.unchanged q ((hused q hqp).mp hq)

theorem Kernel.reaped_reaps (hz : (s.proc p).state = .zombie) (hk : (s.proc p).kstack = some k) (hl : k ∈ s.live) :
    (s.reaped p k).reaps =
      { slot := p, state := .zombie, pid := (s.proc p).pid, kstack := some k, live := true } :: s.reaps := by
  change (s.noteReap p).reaps = _
  simp [hz, hk, hl]

theorem Kernel.Reaping.reaped (h : s.Reaping t) (hz : (t.proc p).state = .zombie) (hk : (t.proc p).kstack = some k)
    (hl : k ∈ t.live) : s.Reaping (t.reaped p k) := by
  refine h.step drops_reaped (fun q hq => ?_) hz hk (reaped_reaps hz hk hl)
  rw [reaped_proc_ne hq]
  exact ⟨rfl, rfl⟩

theorem Kernel.buried_reaps (hz : (s.proc p).state = .zombie) (hk : (s.proc p).kstack = some k) (hl : k ∈ s.live) :
    (s.buried p k).reaps =
      { slot := p, state := .zombie, pid := (s.proc p).pid, kstack := some k, live := true } :: s.reaps := by
  have hproc : ((s.refunded p (s.proc p).totalshare).upd p fun x => { x with totalshare := 0 }).proc p =
      { s.proc p with totalshare := 0 } := by
    rw [upd_proc_same, refunded_proc]
  have hrest : ((s.refunded p (s.proc p).totalshare).upd p fun x => { x with totalshare := 0 }).live = s.live ∧
      ((s.refunded p (s.proc p).totalshare).upd p fun x => { x with totalshare := 0 }).reaps = s.reaps := by
    rw [refunded_eq]
    exact ⟨rfl, rfl⟩
  unfold buried
  rw [reaped_reaps, hproc, hrest.2]
  · rw [hproc]
    exact hz
  · rw [hproc]
    exact hk
  · rw [hrest.1]
    exact hl

theorem Kernel.joined_reaps (hz : (s.proc p).state = .zombie) (hk : (s.proc p).kstack = some k) (hl : k ∈ s.live) :
    (s.joined c p k).reaps =
      { slot := p, state := .zombie, pid := (s.proc p).pid, kstack := some k, live := true } :: s.reaps := by
  have hrest : (s.refunded p (s.proc p).share).live = s.live ∧ (s.refunded p (s.proc p).share).reaps = s.reaps := by
    rw [refunded_eq]
    exact ⟨rfl, rfl⟩
  unfold joined
  change ((s.refunded p (s.proc p).share).reaped p k).reaps = _
  rw [reaped_reaps, refunded_proc, hrest.2]
  · rwa [refunded_proc]
  · rwa [refunded_proc]
  · rw [hrest.1]
    exact hl

/-- `wait` under the condition. -/
theorem Kernel.ReapInv.wp_wait (h : s.ReapInv) (hc : (s.proc c).state = .running) (hok : s.NoReplaced c) :
    wp (wait c) (fun r t => s.ReapsOnce t ∧ r ≠ .ret 0) (· ≠ .kfree) s := by
  have hstack : ∀ {t : Kernel} {q}, t.ReapInv → (t.proc q).state = .zombie → (t.proc q).kstack ≠ none :=
    fun ht hz => ht.stack_some _ (Kernel.used_of_zombie _ _ hz)
  refine Xv6.wp_wait (fun t => t.ReapInv ∧ s.Reaping t ∧ t.NoReplaced c ∧ (t.proc c).state = .running)
    ⟨h, .refl s, hok, hc⟩ ?_ ?_ ?_ ?_ ?_ ?_ ?_
  · rintro t p ⟨ht, hr, hrep, hrun⟩ -
    have hskip : ∀ q, ∃ b, (t.skipped p).proc q = { t.proc q with isThereExec := b } := fun q => by
      unfold Kernel.skipped
      rw [Kernel.upd_proc]
      split
      · exact ⟨_, rfl⟩
      · exact ⟨_, rfl⟩
    refine ⟨ht.like Kernel.like_skipped, hr.then rfl fun q => ?_, fun q => ?_, running_skipped hrun⟩
    · obtain ⟨b, hq⟩ := hskip q
      rw [hq]
      exact ⟨rfl, rfl⟩
    · obtain ⟨b, hq⟩ := hskip q
      rw [hq]
      exact hrep q
  · rintro t q k ⟨ht, hr, hrep, hrun⟩ hz hm hk
    refine ⟨keeps_reapInv.reaped ht hz hm hk, hr.reaped hz hk (ht.stack_live q k hk), fun p hp => ?_,
      running_reaped hrun hz⟩
    by_cases hpq : p = q
    · subst hpq
      rw [Kernel.reaped_proc_same] at hp
      cases hp
    · rw [Kernel.reaped_proc_ne hpq] at hp ⊢
      exact hrep p hp
  · rintro t q ⟨ht, -⟩ hz hk
    exact absurd hk (hstack ht hz)
  · rintro t p ⟨ht, hr, hrep, hrun⟩ - hz hm -
    rw [wp_reapProcess hm]
    refine ⟨fun hk => absurd hk (hstack ht hz), fun k hk => ⟨fun _ => by decide, fun d hd => ⟨?_, ?_⟩⟩⟩
    · have hstep : s.Reaping (t.buried p k) := by
        refine hr.step Kernel.drops_buried (fun q hq => ?_) hz hk (Kernel.buried_reaps hz hk (ht.stack_live p k hk))
        rw [Kernel.buried_proc_ne hq]
        exact ⟨rfl, rfl⟩
      exact hstep.toReapsOnce.then rfl fun _ => Iff.rfl
    · intro h
      have hpos := ht.used_pos p (t.used_of_zombie p hz)
      injection h with h
      omega
  · rintro t p ⟨-, -, hrep, -⟩ hp hz hm hthread
    rw [hrep p hp hz hm] at hthread
    cases hthread
  · rintro t ⟨-, hr, -⟩
    exact ⟨hr.toReapsOnce, fun h => by cases h⟩
  · rintro t ⟨-, hr, -, hrun⟩
    refine ⟨hr.toReapsOnce.then rfl fun q => (Kernel.like_dozing hrun).used q, fun h => by cases h⟩

theorem Kernel.ReapInv.wp_threadJoin (h : s.ReapInv) (hc : (s.proc c).state = .running) {thread : Int}
    (hok : s.JoinsExited c thread) :
    wp (threadJoin c thread) (fun _ t => s.ReapsOnce t) (· ≠ .kfree) s := by
  rw [Xv6.wp_threadJoin]
  refine ⟨fun _ => .of_none rfl fun _ h => h, fun p t ht => ?_⟩
  rw [wp_joinSlot]
  refine ⟨fun _ => .of_none rfl fun q => ((Kernel.like_joining hc).used q).mpr, fun hp => ?_⟩
  have hz := (hok (p, t) ht hp).1
  refine ⟨fun hk => absurd hk (h.stack_some p (s.used_of_zombie p hz)), fun k hk => ?_⟩
  refine ((Kernel.Reaping.refl s).step Kernel.drops_joined (fun q hq => ?_) hz hk
    (Kernel.joined_reaps hz hk (h.stack_live p k hk))).toReapsOnce
  obtain ⟨j, hj⟩ := @Kernel.joined_proc_ne s c p k q hq
  rw [hj]
  exact ⟨rfl, rfl⟩

theorem Kernel.ReapsOnce.of_like {t : Kernel} (h : s.Like t) : s.ReapsOnce t :=
  .of_none h.reaps fun q => (h.used q).mpr

theorem MildHalt.ne_kfree {e : Halt} (h : MildHalt e) : e ≠ .kfree := by
  rintro rfl
  rcases h with (h | h) | h | h <;> cases h

theorem SysCall.Mild.reaps_none {call : SysCall} (h : call.Mild) :
    wp (call.run c) (fun _ t => s.ReapsOnce t) (· ≠ .kfree) s :=
  h.like.mono (fun _ _ ht => .of_like ht.1) fun _ he => he.ne_kfree

/-- Calls that do not reap. -/
theorem SysCall.reaps_none {call : SysCall} (hready : call.Ready s c) (hwait : call ≠ .wait)
    (hjoin : call.isJoin = false) : wp (call.run c) (fun _ t => s.ReapsOnce t) (· ≠ .kfree) s := by
  have hrun := hready.running
  have hself : s.ReapsOnce s := .of_none rfl fun _ h => h
  have hborn : ∀ {t : Kernel} {p : Slot}, s.Claims t → s.freeSlot = some p →
      (∀ q, q ≠ p → (s.proc q).Like (t.proc q)) → s.ReapsOnce t := by
    intro t p hclaims hp hother
    refine .of_none hclaims.reaps fun q hq => ?_
    have hqp := Kernel.ne_freeSlot hq hp
    exact (hother q hqp).state.used.mpr hq
  cases call with
  | fork stack dir =>
    simp only [SysCall.run, wp_bind, wp_pure]
    refine wp_fork (Kernel.used_of_running hrun) hready.fresh.1 (fun _ => hself) (fun p _ hp _ => ?_) (fun p k d f hp _ _ _ => ?_)
      fun _ _ _ => by decide
    · exact hborn Kernel.claims_spoiled hp Kernel.drops_spoiled.other
    · refine hborn Kernel.claims_forked hp fun q hq => ?_
      rw [Kernel.forked_proc_ne hq]
      exact .refl _
  | threadCreate stack junk =>
    simp only [SysCall.run, wp_bind, wp_pure]
    refine wp_threadCreate (Kernel.used_of_running hrun) (fun _ => hself) (fun p _ hp _ => ?_) (fun p k pass f _ _ _ hp _ _ => ?_)
      (fun p k pass f _ _ _ hp _ _ => ?_) fun _ _ _ => by decide
    · exact hborn Kernel.claims_spoiled hp Kernel.drops_spoiled.other
    · exact hborn Kernel.claims_threadUp hp fun q hq => Kernel.threadUp_like hq
    · exact hborn Kernel.claims_threadDown hp Kernel.drops_threadDown.other
  | threadExit v =>
    simp only [SysCall.run, wp_bind, wp_pure]
    refine wp_threadExit (fun t _ ht => ?_) (fun _ => by decide) (by decide)
    refine .of_none ht.retires.rest.reaps fun q hq => (ht.retires.used q).mpr (.inl ?_)
    unfold Kernel.Used
    rw [Kernel.upd_proc]
    split <;> exact hq
  | exit =>
    simp only [SysCall.run, wp_bind, wp_pure]
    refine wp_exit (fun t _ ht => ?_) (fun _ => by decide) (by decide) (by decide)
    exact .of_none ht.retires.rest.reaps fun q hq => (ht.retires.used q).mpr (.inl hq)
  | exec img =>
    have hexec : ∀ {t u : Kernel} {dir old : Page}, s.Reimages t c dir → t.Zombified u c →
        s.ReapsOnce (u.freeDir c old) := by
      intro t u dir old hr hz
      refine .of_none (hz.retires.rest.reaps.trans hr.reaps) fun q hq => ?_
      exact (hz.retires.used q).mpr (.inl ((hr.used q).mpr hq))
    simp only [SysCall.run, wp_bind, wp_pure]
    refine wp_execImage (fun _ => hself) (fun dir usz n _ => ?_) (fun dir usz old t _ _ _ hz => ?_)
      (fun dir usz old m t _ _ _ _ hz => ?_) (by decide) fun _ => by decide
    · exact .of_none rfl fun q => (Kernel.reimages_imaged.used q).mpr
    · exact hexec Kernel.reimages_execed hz
    · exact hexec Kernel.reimages_promoted hz
  | wait => exact absurd rfl hwait
  | threadJoin thread => cases hjoin
  | kill _ => exact SysCall.Mild.reaps_none trivial
  | sbrk _ _ => exact SysCall.Mild.reaps_none trivial
  | setCpuShare _ =>
    simp only [SysCall.run, wp_bind, wp_pure]
    exact wp_setCpuShare_like.mono (fun _ _ ht => .of_like ht) fun _ he => he.ne_kfree
  | file _ => exact SysCall.Mild.reaps_none trivial

end Reaping

theorem boot_reapInv {k d : Page} {root : InodePtr} (hkd : k ≠ d) : (boot k d root).ReapInv := by
  have hused : ∀ q, (boot k d root).Used q → q = 0 := fun q hq => eq_zero_of_boot_used hq
  refine ⟨boot_pageInv hkd, fun q hq => ?_, fun q hq => ?_, fun p q hp _ hq _ _ => ?_, ?_, ?_, ?_⟩
  · rw [hused q hq]
    exact fun h => by cases h
  · rw [hused q hq]
    exact Int.one_pos
  · rw [hused p hp, hused q hq]
  · exact fun n hn => by cases hn
  · exact fun n hn => by cases hn
  · exact List.nodup_nil

/-- In every run that meets the condition, the next call gives back zombies only, each
    once and with a kernel stack that is allocated; share is returned once for each
    process, and `wait` does not return 0. -/
theorem slots_reaped_once {k d : Page} {root : InodePtr} {s : Kernel} {c : Slot} {call : SysCall} (hkd : k ≠ d)
    (h : Run ReapOk (boot k d root) s) (hready : call.Ready s c) (hok : ReapOk s c call) :
    wp (call.run c) (fun r t => s.ReapsOnce t ∧ t.refunds.Nodup ∧ (call = .wait → r ≠ .ret 0)) (· ≠ .kfree) s := by
  have hinv : s.ReapInv := keeps_reapInv.run h (boot_reapInv hkd)
  have hreaps : wp (call.run c) (fun r t => s.ReapsOnce t ∧ (call = .wait → r ≠ .ret 0)) (· ≠ .kfree) s := by
    cases call with
    | wait => exact (hinv.wp_wait hready.running hok).post fun r t ht => ⟨ht.1, fun _ => ht.2⟩
    | threadJoin thread =>
      simp only [SysCall.run, wp_bind]
      refine (hinv.wp_threadJoin hready.running hok).post fun r t ht => ?_
      cases r <;> exact ⟨ht, fun h => by cases h⟩
    | _ => exact (SysCall.reaps_none hready (by simp) rfl).post fun r t ht => ⟨ht, fun h => by cases h⟩
  refine (hreaps.and (keeps_reapInv.call hinv hready hok)).post ?_
  rintro r t ⟨⟨hr, hret⟩, ht⟩
  exact ⟨hr, ht.refund_once, hret⟩

/-- A process with a thread runs until `init` can reap it. -/
def untilExit : List (Slot × SysCall) :=
  [(0, .fork (some 2) (some 3)), (1, .exec (.ok 4 8192)), (1, .threadCreate (some 5) 0), (1, .threadCreate (some 6) 0),
    (2, .threadExit 7), (1, .threadJoin 2), (1, .exit)]

theorem slots_reaped_once_untilExit : ∃ s, Run ReapOk (boot 0 1 0) s ∧
    wp (SysCall.wait.run 0) (fun r t => s.ReapsOnce t ∧ t.refunds.Nodup ∧ (SysCall.wait = .wait → r ≠ .ret 0))
      (· ≠ .kfree) s := by
  have hplay : (play ReapOk untilExit (boot 0 1 0)).any (fun s => s.Schedulable 0 ∧
      SysCall.wait.Ready (s.dispatch 0) 0 ∧ ReapOk (s.dispatch 0) 0 .wait) = true := by
    decide +kernel
  obtain ⟨s, hrun, hs⟩ := Run.exists_of_play hplay
  obtain ⟨hsched, hready, hok⟩ := of_decide_eq_true hs
  have hrun' : Run ReapOk (boot 0 1 0) (s.dispatch 0) := .idle hrun (Kernel.idle_dispatch hsched)
  exact ⟨_, hrun', slots_reaped_once (by decide) hrun' hready hok⟩

/-- A thread replaces the main thread of a grandchild of `init`, which becomes a child
    of `init`; the first `wait` passes over it, the second reaps the child. -/
def replacedMain : List (Slot × SysCall) :=
  [(0, .fork (some 2) (some 3)), (1, .fork (some 4) (some 5)), (2, .exec (.ok 6 8192)),
    (2, .threadCreate (some 7) 0), (3, .exec (.ok 8 8192)), (0, .wait), (1, .exit), (0, .wait)]

/-- The third `wait` frees the kernel stack of a slot that `killsamepid` has just given
    back. -/
theorem wait_frees_twice : ∃ s, Run (fun _ _ _ => True) (boot 0 1 0) s ∧ SysCall.wait.Ready s 0 ∧
    SysCall.wait.run 0 s = .error .kfree := by
  have hplay : (play (fun _ _ _ => True) replacedMain (boot 0 1 0)).any (fun s => s.Schedulable 0 ∧
      SysCall.wait.Ready (s.dispatch 0) 0 ∧ (SysCall.wait.run 0).stopsWith (s.dispatch 0) .kfree = true) = true := by
    decide +kernel
  obtain ⟨s, hrun, hs⟩ := Run.exists_of_play hplay
  obtain ⟨hsched, hready, hstop⟩ := of_decide_eq_true hs
  exact ⟨_, .idle hrun (Kernel.idle_dispatch hsched), hready, eq_error_of_stopsWith hstop⟩

end Xv6
