-- SUMMARY: Whom kill hits, and how a process comes to be killed.
import Xv6.Process.Shares
import Xv6.Memory.Growproc

/-! # Kills

`kill` goes over all slots and marks those with the pid, whether they are in use or not,
and always returns 0. A slot that is given back is cleared, and `allocproc` relies on that.
So a `kill` that names the pid of an UNUSED slot, such as 0, hits who takes the slot next.
-/

namespace Xv6

open Prog

/-! ## One call -/

/-- A process that has been killed. It does not go on sleeping. -/
def Proc.hit (x : Proc) : Proc :=
  { x with killed := true, state := if x.state = .sleeping then .runnable else x.state }

namespace Kernel

variable (s : Kernel) (pid : Int)

/-- What `kill` is for: the slots in use with this pid are hit. -/
def hit : Kernel := s.sweep fun _ x => if x.pid = pid ∧ x.state ≠ .unused then x.hit else x

/-- `kill` hits the slots in use with this pid, and says whether there is one. -/
def KillsExactly : Prop :=
  wp (kill pid) (fun r t => t = s.hit pid ∧
    ((∃ q, s.Used q ∧ (s.proc q).pid = pid) → r = 0) ∧ ((¬ ∃ q, s.Used q ∧ (s.proc q).pid = pid) → r = -1))
    (fun _ => False) s

/-- UNUSED slots with this pid are as good as killed. -/
def SparesUnused : Prop := ∀ q, ¬ s.Used q → (s.proc q).pid = pid → (s.proc q).killed = true

instance : Decidable (s.SparesUnused pid) := inferInstanceAs (Decidable (∀ _, _ → _))

/-- Somebody has this pid, and no UNUSED slot is hit. -/
def KillOk : Prop := (∃ q, s.Used q ∧ (s.proc q).pid = pid) ∧ s.SparesUnused pid

variable {s pid}

theorem sweep_eq_iff {f g : Slot → Proc → Proc} : s.sweep f = s.sweep g ↔ ∀ q, f q (s.proc q) = g q (s.proc q) := by
  constructor
  · intro h q
    have hq : (s.sweep f).proc q = (s.sweep g).proc q := by rw [h]
    rwa [sweep_proc, sweep_proc] at hq
  · intro h
    unfold sweep
    congr 1
    exact funext h

/-- All slots with the pid are hit just if no UNUSED one is. -/
theorem sweep_hit_iff :
    (s.sweep fun _ x => if x.pid = pid then x.hit else x) = s.hit pid ↔ s.SparesUnused pid := by
  unfold hit
  rw [sweep_eq_iff]
  refine forall_congr' fun q => ?_
  unfold Used
  by_cases hpid : (s.proc q).pid = pid
  · by_cases hstate : (s.proc q).state = .unused
    · have hhit : (s.proc q).hit = { s.proc q with killed := true } := by
        unfold Proc.hit
        rw [hstate, if_neg (by decide), ← hstate]
      rw [if_pos hpid, if_neg fun h => h.2 hstate, hhit]
      constructor
      · exact fun h _ _ => (congrArg Proc.killed h).symm
      · intro h
        rw [← h (not_not.mpr hstate) hpid]
    · rw [if_pos hpid, if_pos ⟨hpid, hstate⟩]
      exact iff_of_true rfl fun h => absurd hstate h
  · rw [if_neg hpid, if_neg fun h => hpid h.1]
    exact iff_of_true rfl fun _ h => absurd h hpid

theorem killsExactly_iff : s.KillsExactly pid ↔ s.KillOk pid := by
  unfold KillsExactly kill KillOk
  rw [wp_bind, wp_modify, wp_pure]
  change (s.sweep fun _ x => if x.pid = pid then x.hit else x) = s.hit pid ∧ _ ↔ _
  rw [sweep_hit_iff]
  by_cases hex : ∃ q, s.Used q ∧ (s.proc q).pid = pid
  · exact ⟨fun h => ⟨hex, h.1⟩, fun h => ⟨h.2, fun _ => rfl, fun hno => absurd hex hno⟩⟩
  · exact ⟨fun h => absurd (h.2.2 hex) (by decide), fun h => absurd h.1 hex⟩

end Kernel

/-! ## Calls that kill nobody -/

/-- Who is killed in `t` has been in `s`, and has not given its slot back. -/
def Kernel.Spares (s t : Kernel) : Prop :=
  ∀ q, (t.proc q).killed = true → (s.proc q).killed = true ∧ (s.Used q → t.Used q)

namespace Kernel.Spares

variable {s t u : Kernel} {c p : Slot}

theorem refl (s : Kernel) : s.Spares s := fun _ h => ⟨h, id⟩

theorem trans (h : s.Spares t) (h' : t.Spares u) : s.Spares u := fun q hq =>
  have ht := h' q hq
  have hs := h q ht.1
  ⟨hs.1, fun hused => ht.2 (hs.2 hused)⟩

/-- No slot changes hands. -/
theorem of_like (hl : s.Like t) (h : ∀ q, (t.proc q).killed = (s.proc q).killed) : s.Spares t := fun q hq =>
  ⟨(h q).symm.trans hq, (hl.used q).mpr⟩

/-- A slot is taken, and may be given back at once. -/
theorem of_claim (hp : s.freeSlot = some p) (hother : ∀ q, q ≠ p → (s.proc q).Like (t.proc q))
    (h : ∀ q, (t.proc q).killed = (s.proc q).killed) : s.Spares t := by
  refine fun q hq => ⟨(h q).symm.trans hq, fun hused => ?_⟩
  have hne : q ≠ p := ne_freeSlot hused hp
  exact (hother q hne).state.used.mpr hused

/-- A slot that is given back is cleared. -/
theorem of_drop (hd : s.Drops t p) (hclear : (t.proc p).killed = false)
    (h : ∀ q, q ≠ p → (t.proc q).killed = (s.proc q).killed) : s.Spares t := by
  intro q hq
  by_cases hqp : q = p
  · rw [hqp, hclear] at hq
    cases hq
  · exact ⟨(h q hqp).symm.trans hq, ((hd.other q hqp).state.used).mpr⟩

/-- Processes become zombies. -/
theorem of_retires {Z : Slot → Prop} (hr : s.Retires t Z) (h : ∀ q, (t.proc q).killed = (s.proc q).killed) :
    s.Spares t := fun q hq => ⟨(h q).symm.trans hq, fun hused => (hr.used q).mpr (.inl hused)⟩

theorem of_reimages {dir : Page} (hr : s.Reimages t c dir) (hc : (t.proc c).killed = (s.proc c).killed) :
    s.Spares t := by
  refine fun q hq => ⟨?_, (hr.used q).mpr⟩
  by_cases hqc : q = c
  · rw [hqc, hc] at hq
    rwa [hqc]
  · obtain ⟨_, _, h, -⟩ := hr.other q hqc
    rwa [h] at hq

end Kernel.Spares

namespace Kernel

variable {s t : Kernel} {c p : Slot} {k d : Page} {pass : ℚ} {f : Files}

theorem spares_spoiled {dir : Option Page} (hp : s.freeSlot = some p) : s.Spares (s.spoiled p dir) := by
  refine .of_claim hp drops_spoiled.other fun q => ?_
  unfold spoiled
  rw [upd_proc, claimSlot_proc]
  split <;> rfl

theorem spares_forked (hp : s.freeSlot = some p) : s.Spares (s.forked c p k d f) := by
  refine .of_claim hp (fun q hq => ?_) fun q => ?_
  · rw [forked_proc_ne hq]
    exact .refl _
  · by_cases hq : q = p
    · have hproc : ((((s.alloced p k).addPage d).setTop d (PGROUNDUP (s.proc c).sz)).setArea d
          ((s.proc c).pgdir.bind s.area)).proc p = _ := s.alloced_proc_same k
      subst hq
      unfold forked
      rw [upd_proc_same, setFiles_proc, upd_proc_same, hproc]
      rfl
    · rw [forked_proc_ne hq]

theorem threaded_killed (hc : c ≠ p) (q : Slot) : ((s.threaded c p k pass f).proc q).killed = (s.proc q).killed := by
  by_cases hq : q = p
  · subst hq
    obtain ⟨_, _, _, _, h⟩ := s.threaded_proc_same k pass f hc
    rw [h]
    rfl
  · obtain ⟨_, _, _, _, _, h⟩ := s.threaded_proc_ne (c := c) k pass f hq
    rw [h]
    rfl

theorem spares_threadUp {usz sz : Nat} (hc : c ≠ p) (hp : s.freeSlot = some p) :
    s.Spares ((s.threaded c p k pass f).threadUp p usz sz) := by
  refine .of_claim hp (fun q hq => threadUp_like hq) fun q => ?_
  rw [← @threaded_killed s c p k pass f hc q]
  unfold threadUp
  rw [upd_upd, upd_proc]
  split <;> rfl

theorem spares_threadDown (hc : c ≠ p) (hp : s.freeSlot = some p) :
    s.Spares ((s.threaded c p k pass f).threadDown p) := by
  refine .of_claim hp drops_threadDown.other fun q => ?_
  rw [← @threaded_killed s c p k pass f hc q]
  unfold threadDown
  rw [upd_proc]
  split <;> rfl

theorem Left.spares {G : Slot → Prop} (h : s.Left t c G) : s.Spares t := by
  refine .of_retires h.retires fun q => ?_
  obtain ⟨st, hq, -⟩ := h.proc q
  rw [hq]
  rfl

theorem Zombified.spares (h : s.Zombified t c) : s.Spares t := by
  refine .of_retires h.retires fun q => ?_
  obtain ⟨st, r, hq, -⟩ := h.moved q
  rw [hq]
  rfl

theorem spares_imaged {usz n : Nat} : s.Spares (s.imaged c d usz n) := by
  refine .of_reimages reimages_imaged ?_
  rw [imaged_proc_same]
  rfl

theorem spares_execed {usz : Nat} : s.Spares (s.execed c d usz) := by
  refine .of_reimages reimages_execed ?_
  rw [execed_proc_same]
  rfl

theorem spares_promoted {m : Slot} {usz : Nat} : s.Spares (s.promoted c m d usz) := by
  obtain ⟨b, h⟩ := @promoted_proc_same s c m d usz
  refine .of_reimages reimages_promoted ?_
  rw [h]
  rfl

theorem spares_reaped : s.Spares (s.reaped p k) := by
  refine .of_drop drops_reaped ?_ fun q hq => ?_
  · rw [reaped_proc_same]
    rfl
  · rw [reaped_proc_ne hq]

theorem spares_buried : s.Spares (s.buried p k) := by
  refine .of_drop drops_buried ?_ fun q hq => ?_
  · rw [buried_proc_same]
    rfl
  · rw [buried_proc_ne hq]

theorem spares_freeDir : s.Spares (s.freeDir p d) := fun _ h => ⟨h, id⟩

theorem spares_joined : s.Spares (s.joined c p k) := by
  refine .of_drop drops_joined ?_ fun q hq => ?_
  · obtain ⟨j, h⟩ := @joined_proc_same s c p k
    rw [h]
    rfl
  · obtain ⟨j, h⟩ := s.joined_proc_ne (c := c) (k := k) hq
    rw [h]

/-- An update that leaves `killed` and the state alone. -/
theorem spares_upd {g : Proc → Proc} (hkilled : (g (s.proc p)).killed = (s.proc p).killed)
    (hused : (s.proc p).state ≠ .unused → (g (s.proc p)).state ≠ .unused) : s.Spares (s.upd p g) := by
  intro q hq
  unfold Used
  rw [upd_proc] at hq ⊢
  split at hq
  · next h =>
    subst h
    rw [if_pos rfl]
    exact ⟨hkilled.symm.trans hq, hused⟩
  · next h =>
    rw [if_neg h]
    exact ⟨hq, id⟩

theorem Scanned.spares (h : s.Scanned c t) : s.Spares t := by
  induction h with
  | refl => exact .refl s
  | skip _ _ ih => exact ih.trans (spares_upd rfl id)
  | reap _ _ _ _ ih => exact ih.trans spares_reaped

theorem Grew.spares {n : Int} {sz : Nat} {r : Outcome Int} (h : s.Grew c n sz r t) : s.Spares t := by
  cases h with
  | fails top _ _ => exact fun _ h => ⟨h, id⟩
  | grows top _ =>
    unfold resized
    have hsweep : s.Spares (Kernel.sweep { s with top := top } fun q x =>
        if q ≠ c ∧ x.pid = (s.proc c).pid then { x with sz := grownSize x.sz n } else x) := by
      intro q hq
      unfold Used
      rw [sweep_proc] at hq ⊢
      split at hq
      · next hne =>
        rw [if_pos hne]
        exact ⟨hq, id⟩
      · next hne =>
        rw [if_neg hne]
        exact ⟨hq, id⟩
    exact hsweep.trans (spares_upd rfl id)

end Kernel

section Calls

variable {s : Kernel} {c : Slot}

theorem wp_setCpuShare_spares {share : Int} : wp (setCpuShare c share) (fun _ t => s.Spares t) (fun _ => True) s := by
  refine wp_setCpuShare (fun _ => .refl s) fun _ _ => ⟨fun _ => trivial, fun m _ => ⟨fun _ => trivial, fun _ => ?_⟩⟩
  refine wp_assignStrides (fun t ht => ?_) fun _ _ => trivial
  have hcharged : ∀ q, ((s.charged m share).resetStride.proc q).killed = (s.proc q).killed := by
    intro q
    rw [Kernel.resetStride_proc]
    by_cases hq : q = m
    · rw [hq, Kernel.charged_proc_same]
    · rw [Kernel.charged_proc_ne hq]
  refine .of_like ((Kernel.like_charged.trans (.of_proc rfl)).trans ht.like) fun q => ?_
  rw [← hcharged q]
  rcases ht.proc q with ⟨hq, -⟩ | ⟨_, _, _, hq⟩
  · rw [hq]
  · rw [hq]
    rfl

/-- Who makes a call other than `kill` kills nobody. -/
theorem SysCall.Ready.spares {call : SysCall} (hready : call.Ready s c) (hkill : ∀ pid, call ≠ .kill pid) :
    wp (call.run c) (fun _ t => s.Spares t) (fun _ => True) s := by
  have hc := Kernel.used_of_running hready.running
  by_cases hshare : ∃ share, call = .setCpuShare share
  · obtain ⟨share, rfl⟩ := hshare
    simp only [run, wp_bind, wp_pure]
    exact wp_setCpuShare_spares
  by_cases hsbrk : ∃ n room, call = .sbrk n room
  · obtain ⟨n, room, rfl⟩ := hsbrk
    exact wp_sbrk.post fun _ t ht => ht.spares
  by_cases hfile : ∃ file, call = .file file
  · obtain ⟨file, rfl⟩ := hfile
    simp only [run, wp_bind, wp_pure, wp_onFiles]
    exact (file.wp_run_any fun _ f => .of_like (.of_proc rfl) fun _ => rfl).mono (fun _ _ h => h) fun _ _ => trivial
  refine hready.after.post fun _ t ht => ?_
  cases ht with
  | @mild call _ hmild _ _ =>
    cases call with
    | kill pid => exact absurd rfl (hkill pid)
    | sbrk n room => exact absurd ⟨n, room, rfl⟩ hsbrk
    | file file => exact absurd ⟨file, rfl⟩ hfile
    | _ => exact hmild.elim
  | @setCpuShare share _ _ => exact absurd ⟨share, rfl⟩ hshare
  | full _ => exact .refl s
  | noThread _ => exact .refl s
  | notLoaded => exact .refl s
  | noTarget => exact .refl s
  | forkSpoiled hp _ => exact Kernel.spares_spoiled hp
  | forked hp _ _ _ => exact Kernel.spares_forked hp
  | createSpoiled _ hp => exact Kernel.spares_spoiled hp
  | threadUp _ hp _ => exact Kernel.spares_threadUp (Kernel.ne_freeSlot hc hp) hp
  | threadDown _ hp _ _ => exact Kernel.spares_threadDown (Kernel.ne_freeSlot hc hp) hp
  | exited _ h => exact h.spares
  | threadExited _ h => exact (Kernel.spares_upd rfl id).trans h.spares
  | imaged _ _ => exact Kernel.spares_imaged
  | execed _ _ _ hz => exact (Kernel.spares_execed.trans hz.spares).trans Kernel.spares_freeDir
  | promoted _ _ _ _ hz => exact (Kernel.spares_promoted.trans hz.spares).trans Kernel.spares_freeDir
  | waited h => exact h.spares
  | dozed h => exact h.spares.trans (Kernel.spares_upd rfl fun _ => by simp)
  | buried h _ _ _ _ _ _ => exact (h.spares.trans Kernel.spares_buried).trans Kernel.spares_freeDir
  | joining => exact Kernel.spares_upd rfl fun _ => by simp
  | joined _ _ _ => exact Kernel.spares_joined

end Calls

/-! ## Runs -/

/-- For each slot, whether somebody has named its pid in `kill`, or it has faulted, since
    it was taken. -/
abbrev Marks := Slot → Bool

/-- The next slot to be taken starts without a mark. -/
def Marks.claim (m : Marks) (s : Kernel) : Marks :=
  match s.freeSlot with
  | none => m
  | some p => Function.update m p false

/-- What a call makes of the marks. -/
def Marks.after (m : Marks) (s : Kernel) : SysCall → Marks
  | .kill pid => fun q => m q || decide (s.Used q ∧ (s.proc q).pid = pid)
  | .fork _ _ | .threadCreate _ _ => m.claim s
  | _ => m

/-- The state after a fault of `c` in user space. -/
def Kernel.faulted (s : Kernel) (c : Slot) : Kernel := s.upd c fun x => { x with killed := true }

/-- A run with the marks it leaves. Beside calls and the scheduler there are processes that
    misbehave. -/
inductive MarkedRun (Ok : Kernel → Slot → SysCall → Prop) (s : Kernel) : Kernel → Marks → Prop where
  | refl : MarkedRun Ok s s fun _ => false
  | idle {t u : Kernel} {m : Marks} (h : MarkedRun Ok s t m) (hidle : Idle t u) : MarkedRun Ok s u m
  | fault {t : Kernel} {m : Marks} (h : MarkedRun Ok s t m) (c : Slot) (hc : (t.proc c).state = .running) :
      MarkedRun Ok s (t.faulted c) (Function.update m c true)
  | call {t u : Kernel} {m : Marks} {r : Outcome Int} (h : MarkedRun Ok s t m) (c : Slot) (call : SysCall)
      (hready : call.Ready t c) (hok : Ok t c call) (hrun : call.run c t = .ok (r, u)) :
      MarkedRun Ok s u (m.after t call)

/-- Every run leaves marks. -/
theorem Run.marked {Ok : Kernel → Slot → SysCall → Prop} {s t : Kernel} (h : Run Ok s t) : ∃ m, MarkedRun Ok s t m := by
  induction h with
  | refl => exact ⟨_, .refl⟩
  | idle _ hidle ih =>
    obtain ⟨m, hm⟩ := ih
    exact ⟨m, hm.idle hidle⟩
  | call _ c call hready hok hrun ih =>
    obtain ⟨m, hm⟩ := ih
    exact ⟨_, hm.call c call hready hok hrun⟩

/-- A `kill` does not hit UNUSED slots. -/
def SparingKills (s : Kernel) (_ : Slot) : SysCall → Prop
  | .kill pid => s.SparesUnused pid
  | _ => True

instance (s : Kernel) (c : Slot) : (call : SysCall) → Decidable (SparingKills s c call)
  | .kill pid => inferInstanceAs (Decidable (s.SparesUnused pid))
  | .fork _ _ | .threadCreate _ _ | .threadExit _ | .exit | .exec _ | .wait | .threadJoin _ | .sbrk _ _
  | .setCpuShare _ | .file _ => .isTrue trivial

/-- Who is killed has a mark; UNUSED slots are not. -/
def MarkInv (s : Kernel) (m : Marks) : Prop := ∀ q, (s.proc q).killed = true → s.Used q ∧ m q = true

namespace MarkInv

variable {s t : Kernel} {m m' : Marks} {c : Slot}

theorem spares (h : MarkInv s m) (hs : s.Spares t) (hm : ∀ q, s.Used q → m q = true → m' q = true) : MarkInv t m' := by
  intro q hq
  obtain ⟨hkilled, hused⟩ := hs q hq
  obtain ⟨hq, hmark⟩ := h q hkilled
  exact ⟨hused hq, hm q hq hmark⟩

theorem idle (h : MarkInv s m) (hi : Idle s t) : MarkInv t m := by
  refine h.spares (.of_like hi.like fun q => ?_) fun _ _ => id
  obtain ⟨_, _, _, _, _, _, hq, -⟩ := hi.proc q
  rw [hq]
  rfl

theorem fault (h : MarkInv s m) (hc : (s.proc c).state = .running) :
    MarkInv (s.faulted c) (Function.update m c true) := by
  intro q hq
  unfold Kernel.Used Kernel.faulted at *
  rw [Kernel.upd_proc] at hq ⊢
  by_cases hqc : q = c
  · rw [if_pos hqc, hqc, hc, Function.update_self]
    exact ⟨by decide, rfl⟩
  · rw [if_neg hqc] at hq ⊢
    rw [Function.update_of_ne hqc]
    exact h q hq

theorem kill (h : MarkInv s m) {pid : Int} (hok : s.SparesUnused pid) :
    MarkInv (s.sweep fun _ x => if x.pid = pid then x.hit else x) (m.after s (.kill pid)) := by
  intro q hq
  -- A slot with the pid is in use, or has been killed before.
  have hold : (s.proc q).killed = true ∨ (s.Used q ∧ (s.proc q).pid = pid) := by
    rw [Kernel.sweep_proc] at hq
    split at hq
    · next hpid =>
      by_cases hused : s.Used q
      · exact .inr ⟨hused, hpid⟩
      · exact .inl (hok q hused hpid)
    · exact .inl hq
  have hused : s.Used q ∧ m.after s (.kill pid) q = true := by
    unfold Marks.after
    rw [Bool.or_eq_true, decide_eq_true_eq]
    rcases hold with hkilled | hhit
    · exact ⟨(h q hkilled).1, .inl (h q hkilled).2⟩
    · exact ⟨hhit.1, .inr hhit⟩
  refine ⟨?_, hused.2⟩
  unfold Kernel.Used at hused ⊢
  rw [Kernel.sweep_proc]
  split
  · unfold Proc.hit
    dsimp only
    split
    · decide
    · exact hused.1
  · exact hused.1

/-- Slots that are in use keep their marks. -/
theorem after_of_used {call : SysCall} {q : Slot} (hq : s.Used q) (hm : m q = true) : m.after s call q = true := by
  have hclaim : m.claim s q = true := by
    unfold Marks.claim
    cases hfree : s.freeSlot with
    | none => exact hm
    | some p => exact (Function.update_of_ne (Kernel.ne_freeSlot hq hfree) _ _).trans hm
  unfold Marks.after
  cases call with
  | kill pid => exact Bool.or_eq_true_iff.mpr (.inl hm)
  | fork _ _ => exact hclaim
  | threadCreate _ _ => exact hclaim
  | _ => exact hm

theorem call (h : MarkInv s m) {call : SysCall} (hready : call.Ready s c) (hok : SparingKills s c call) :
    wp (call.run c) (fun _ t => MarkInv t (m.after s call)) (fun _ => True) s := by
  by_cases hkill : ∃ pid, call = .kill pid
  · obtain ⟨pid, rfl⟩ := hkill
    simp only [SysCall.run, wp_bind, Xv6.kill, wp_modify, wp_pure]
    exact h.kill hok
  · refine (hready.spares fun pid hpid => hkill ⟨pid, hpid⟩).post fun _ t ht => ?_
    exact h.spares ht fun q hq hm => after_of_used hq hm

end MarkInv

theorem MarkedRun.inv {s t : Kernel} {m : Marks} (h : MarkedRun SparingKills s t m)
    (hs : MarkInv s fun _ => false) : MarkInv t m := by
  induction h with
  | refl => exact hs
  | idle _ hidle ih => exact ih.idle hidle
  | fault _ c hc ih => exact ih.fault hc
  | call _ c call hready hok hrun ih => exact (ih.call hready hok).of_run hrun

theorem boot_markInv {stack dir : Page} {root : InodePtr} : MarkInv (boot stack dir root) fun _ => false := by
  intro q hq
  have hnot : ((boot stack dir root).proc q).killed = false := by
    rw [boot_proc]
    split <;> rfl
  rw [hnot] at hq
  cases hq

/-- `fork` and `thread_create`. -/
def SysCall.Creates : SysCall → Prop
  | .fork _ _ | .threadCreate _ _ => True
  | _ => False

/-- Who takes a slot has not been killed. -/
theorem MarkInv.starts {s : Kernel} {m : Marks} {c : Slot} {call : SysCall} (h : MarkInv s m) (hready : call.Ready s c)
    (hcreates : call.Creates) :
    wp (call.run c) (fun _ t => ∀ p, s.freeSlot = some p → (t.proc p).killed = false) (fun _ => True) s := by
  have hkill : ∀ pid, call ≠ .kill pid := by
    rintro pid rfl
    exact hcreates
  refine (hready.spares hkill).post fun _ t ht p hp => Bool.eq_false_iff.mpr fun hkilled => ?_
  exact (h p (ht p hkilled).1).1 (s.freeSlot_unused hp)

theorem kill_exact (s : Kernel) (pid : Int) :
    (s.KillsExactly pid ↔ s.KillOk pid) ∧
    ∀ (stack dir : Page) (root : InodePtr) (m : Marks), MarkedRun SparingKills (boot stack dir root) s m →
      (∀ q, s.Used q → (s.proc q).killed = true → m q = true) ∧
      ∀ (c : Slot) (call : SysCall), call.Creates → call.Ready s c →
        wp (call.run c) (fun _ t => ∀ p, s.freeSlot = some p → (t.proc p).killed = false) (fun _ => True) s := by
  refine ⟨Kernel.killsExactly_iff, fun stack dir root m hrun => ?_⟩
  have hinv := hrun.inv boot_markInv
  exact ⟨fun q _ hkilled => (hinv q hkilled).2, fun c call hcreates hready => hinv.starts hready hcreates⟩

/-- Init kills the child that it has forked. -/
theorem kill_exact_child : ∃ s m, MarkedRun SparingKills (boot 0 1 0) s m ∧ s.Used 1 ∧ (s.proc 1).killed = true ∧
    m 1 = true := by
  have hplay : (play SparingKills [(0, .fork (some 2) (some 3)), (0, .kill 2)] (boot 0 1 0)).any
      (fun s => s.Used 1 ∧ (s.proc 1).killed = true) = true := by
    decide +kernel
  obtain ⟨s, hrun, hs⟩ := Run.exists_of_play hplay
  obtain ⟨hused, hkilled⟩ := of_decide_eq_true hs
  obtain ⟨m, hm⟩ := hrun.marked
  exact ⟨s, m, hm, hused, hkilled, ((kill_exact s 2).2 0 1 0 m hm).1 1 hused hkilled⟩

/-- Nobody has pid 0, but `kill(0)` returns 0, and who takes a slot afterwards is killed. -/
theorem kill_hits_unused : ¬ (boot 0 1 0).KillsExactly 0 ∧ ∃ s m, MarkedRun (fun _ _ _ => True) (boot 0 1 0) s m ∧
    s.Used 1 ∧ (s.proc 1).killed = true ∧ m 1 = false := by
  refine ⟨fun h => ?_, ?_⟩
  · have hnone : ¬ ∃ q, (boot 0 1 0).Used q ∧ ((boot 0 1 0).proc q).pid = 0 := by decide +kernel
    exact hnone (Kernel.killsExactly_iff.mp h).1
  · have hplay : (play (fun _ _ _ => True) [(0, .kill 0)] (boot 0 1 0)).any (fun s =>
        (SysCall.fork (some 2) (some 3)).Ready s 0 ∧ s.freeSlot = some 1 ∧
        ((SysCall.fork (some 2) (some 3)).run 0).returns s (fun _ t => t.Used 1 ∧ (t.proc 1).killed = true) = true) =
        true := by
      decide +kernel
    obtain ⟨s, hrun, hs⟩ := Run.exists_of_play hplay
    obtain ⟨hready, hfree, hret⟩ := of_decide_eq_true hs
    obtain ⟨r, t, hfork, ht⟩ := exists_of_returns hret
    obtain ⟨hused, hkilled⟩ := of_decide_eq_true ht
    obtain ⟨m, hm⟩ := hrun.marked
    refine ⟨t, _, hm.call 0 _ hready trivial hfork, hused, hkilled, ?_⟩
    unfold Marks.after Marks.claim
    rw [hfree]
    exact Function.update_self 1 false m

end Xv6
