-- SUMMARY: The memory size of a process, in its threads and in its page directory.
import Xv6.Memory.Paged

/-! # Memory sizes

`growproc` takes the size of the caller from `allocuvm` or `deallocuvm`, and adds `n` to
the size of the other threads. The two agree as long as `n` does not take away all of
the memory or more. `deallocuvm` returns 0 when it leaves nothing, which `growproc` takes
for a failure; and when the size wraps around it does nothing, which `growproc` takes for
success.
-/

namespace Xv6

open Prog
open Paging (Dir Layout Mem FileData Arg Commits StacksFit userPages)

/-! ## Invariant -/

/-- Neither `UNUSED` nor `ZOMBIE`. -/
def Kernel.Live (s : Kernel) (q : Slot) : Prop := (s.proc q).state ≠ .unused ∧ (s.proc q).state ≠ .zombie

instance (s : Kernel) (q : Slot) : Decidable (s.Live q) := inferInstanceAs (Decidable (_ ∧ _))

theorem Kernel.live_of_running {s : Kernel} {c : Slot} (h : (s.proc c).state = .running) : s.Live c := by
  unfold Live
  rw [h]
  decide

theorem ProcState.Like.live {a b : ProcState} (h : a.Like b) :
    (b ≠ .unused ∧ b ≠ .zombie) ↔ (a ≠ .unused ∧ a ≠ .zombie) := and_congr h.used (not_congr h.zombie)

structure Paged.SizeInv (L : Layout) (m : Paged) : Prop where
  nextpid_pos : 0 < m.kernel.nextpid
  pid_lt : ∀ q, (m.kernel.proc q).pid < m.kernel.nextpid
  group : ∀ p q, m.kernel.Live p → m.kernel.Live q → (m.kernel.proc p).pid = (m.kernel.proc q).pid →
    (m.kernel.proc p).sz = (m.kernel.proc q).sz ∧ (m.kernel.proc p).pgdir = (m.kernel.proc q).pgdir
  owner : ∀ p q, m.kernel.Live p → m.kernel.Live q → (m.kernel.proc p).pgdir = (m.kernel.proc q).pgdir →
    (m.kernel.proc p).pid = (m.kernel.proc q).pid
  mapped : ∀ q, m.kernel.Live q → 0 < (m.kernel.proc q).sz ∧ (m.kernel.proc q).sz < KERNBASE ∧
    ∃ d, (m.kernel.proc q).pgdir = some d ∧ d ∈ m.kernel.live ∧ (m.dirs d).Maps L (m.kernel.proc q).sz

/-- `y` is `x` as far as memory goes. -/
structure Proc.Sized (x y : Proc) : Prop where
  state : x.state.Like y.state
  pid : y.pid = x.pid
  pgdir : y.pgdir = x.pgdir
  sz : y.sz = x.sz

theorem Proc.Sized.refl (x : Proc) : x.Sized x := ⟨.inl rfl, rfl, rfl, rfl⟩

theorem Proc.sized_withShare (x : Proc) (m : Bool) (sh st pa : ℚ) (n : Int) : x.Sized (x.withShare m sh st pa n) :=
  ⟨.inl rfl, rfl, rfl, rfl⟩

namespace Paged.SizeInv

variable {L : Layout} {m : Paged} {s t : Kernel} {c p : Slot} {dirs : Page → Dir}

theorem dirOf (h : m.SizeInv L) {q : Slot} (hq : m.kernel.Live q) : (m.dirOf q).Maps L (m.kernel.proc q).sz := by
  obtain ⟨-, -, d, hd, -, hmaps⟩ := h.mapped q hq
  unfold Paged.dirOf
  rw [hd]
  exact hmaps

/-- Who is there has been there before, with the same memory. -/
theorem of_live (h : SizeInv L ⟨s, dirs⟩) (hnext : 0 < t.nextpid) (hlt : ∀ q, (t.proc q).pid < t.nextpid)
    (hold : ∀ q, t.Live q → (s.proc q).Sized (t.proc q)) (hlive : s.live ⊆ t.live) : SizeInv L ⟨t, dirs⟩ := by
  have hs : ∀ q, t.Live q → s.Live q := fun q hq => (hold q hq).state.live.mp hq
  refine ⟨hnext, hlt, fun a b ha hb => ?_, fun a b ha hb => ?_, fun q hq => ?_⟩
  · have hka := hold a ha
    have hkb := hold b hb
    dsimp only
    rw [hka.pid, hkb.pid, hka.sz, hkb.sz, hka.pgdir, hkb.pgdir]
    exact h.group a b (hs a ha) (hs b hb)
  · have hka := hold a ha
    have hkb := hold b hb
    dsimp only
    rw [hka.pid, hkb.pid, hka.pgdir, hkb.pgdir]
    exact h.owner a b (hs a ha) (hs b hb)
  · have hk := hold q hq
    obtain ⟨hpos, hsz, d, hd, hd', hmaps⟩ := h.mapped q (hs q hq)
    dsimp only
    rw [hk.sz, hk.pgdir]
    exact ⟨hpos, hsz, d, hd, hlive hd', hmaps⟩

/-- Slots and their directories stay, but `p`, which is not taken. -/
theorem drop (h : SizeInv L ⟨s, dirs⟩) (hother : ∀ q, q ≠ p → (s.proc q).Sized (t.proc q)) (hp : ¬ t.Live p)
    (hnext : s.nextpid ≤ t.nextpid) (hlt : (t.proc p).pid < t.nextpid) (hlive : s.live ⊆ t.live) :
    SizeInv L ⟨t, dirs⟩ := by
  refine h.of_live (lt_of_lt_of_le h.nextpid_pos hnext) (fun q => ?_)
    (fun q hq => hother q fun heq => hp (heq ▸ hq)) hlive
  by_cases hqp : q = p
  · exact hqp ▸ hlt
  · rw [(hother q hqp).pid]
    exact lt_of_lt_of_le (h.pid_lt q) hnext

theorem idle (h : SizeInv L ⟨s, dirs⟩) (hidle : Idle s t) : SizeInv L ⟨t, dirs⟩ := by
  have hlike := hidle.like
  refine h.of_live (hlike.nextpid ▸ h.nextpid_pos) (fun q => ?_) (fun q _ => ?_) hlike.live.ge
  · rw [(hlike.proc q).pid, hlike.nextpid]
    exact h.pid_lt q
  · obtain ⟨st, chan, priority, pticks, ptotalticks, pass, hq, hst⟩ := hidle.proc q
    rw [hq]
    exact ⟨hst, rfl, rfl, rfl⟩

/-- A slot was taken and given up again. -/
theorem spoil (h : SizeInv L ⟨s, dirs⟩) (hlt : s.nextpid < 2 ^ 31 - 1) {dir : Option Page} :
    SizeInv L ⟨s.spoiled p dir, dirs⟩ := by
  have hnext := (@Kernel.claims_spoiled s p dir).nextpid_eq h.nextpid_pos hlt
  have hpid : ((s.spoiled p dir).proc p).pid = s.nextpid := by
    unfold Kernel.spoiled
    rw [Kernel.upd_proc_same, Kernel.claimSlot_proc, if_pos rfl]
    rfl
  refine h.drop (fun q hq => ?_) (fun hl => Kernel.drops_spoiled.unused hl.1) (by omega) (by omega) (le_refl _)
  rw [Kernel.spoiled, Kernel.upd_proc_ne _ _ hq, Kernel.claimSlot_proc, if_neg hq]
  exact .refl _

/-- `c` has a child with a copy of its memory. -/
theorem fork (h : SizeInv L ⟨s, dirs⟩) (hc : s.Live c) (hlt : s.nextpid < 2 ^ 31 - 1) {k d : Page} {f : Files}
    {D : Dir} (hd : d ∉ s.live) (hD : D.Maps L (s.proc c).sz) :
    SizeInv L ⟨s.forked c p k d f, Function.update dirs d D⟩ := by
  have hborn := @Kernel.forked_born s c p k d f
  have hsz : ((s.forked c p k d f).proc p).sz = (s.proc c).sz := by
    unfold Kernel.forked
    rw [Kernel.upd_proc_same, Kernel.setFiles_proc, Kernel.upd_proc_same]
  have hnext := (@Kernel.claims_forked s c p k d f).nextpid_eq h.nextpid_pos hlt
  have hother : ∀ q, q ≠ p → (s.forked c p k d f).proc q = s.proc q := fun q hq => Kernel.forked_proc_ne hq
  have hold : ∀ q, q ≠ p → (s.forked c p k d f).Live q → s.Live q := by
    intro q hq hl
    unfold Kernel.Live at hl ⊢
    rwa [hother q hq] at hl
  have hne : ∀ q, s.Live q → (s.proc q).pgdir ≠ some d := by
    intro q hq heq
    obtain ⟨-, -, e, he, he', -⟩ := h.mapped q hq
    obtain rfl : e = d := Option.some.inj (he.symm.trans heq)
    exact hd he'
  obtain ⟨hpos, hkern, -⟩ := h.mapped c hc
  refine ⟨?_, fun q => ?_, fun a b ha hb hab => ?_, fun a b ha hb hab => ?_, fun q hq => ?_⟩
  · have := h.nextpid_pos
    dsimp only at this ⊢
    omega
  · dsimp only
    by_cases hqp : q = p
    · rw [hqp, hborn.pid, hnext]
      exact Int.lt_succ _
    · rw [hother q hqp, hnext]
      exact (h.pid_lt q).trans (Int.lt_succ _)
  · dsimp only at ha hb hab ⊢
    by_cases hap : a = p
    · by_cases hbp : b = p
      · rw [hap, hbp]
        exact ⟨rfl, rfl⟩
      · rw [hap, hborn.pid, hother b hbp] at hab
        exact absurd hab (h.pid_lt b).ne'
    · by_cases hbp : b = p
      · rw [hbp, hborn.pid, hother a hap] at hab
        exact absurd hab (h.pid_lt a).ne
      · rw [hother a hap, hother b hbp] at hab ⊢
        exact h.group a b (hold a hap ha) (hold b hbp hb) hab
  · dsimp only at ha hb hab ⊢
    by_cases hap : a = p
    · by_cases hbp : b = p
      · rw [hap, hbp]
      · rw [hap, hborn.pgdir, hother b hbp] at hab
        exact absurd hab.symm (hne b (hold b hbp hb))
    · by_cases hbp : b = p
      · rw [hbp, hborn.pgdir, hother a hap] at hab
        exact absurd hab (hne a (hold a hap ha))
      · rw [hother a hap, hother b hbp] at hab ⊢
        exact h.owner a b (hold a hap ha) (hold b hbp hb) hab
  · dsimp only at hq ⊢
    rw [Kernel.forked_live]
    by_cases hqp : q = p
    · rw [hqp, hsz, hborn.pgdir]
      refine ⟨hpos, hkern, d, rfl, Finset.mem_insert_self _ _, ?_⟩
      rw [Function.update_self]
      exact hD
    · rw [hother q hqp]
      obtain ⟨h₁, h₂, e, he, he', hmaps⟩ := h.mapped q (hold q hqp hq)
      refine ⟨h₁, h₂, e, he, Finset.mem_insert_of_mem (Finset.mem_insert_of_mem he'), ?_⟩
      have hed : e ≠ d := fun heq => hd (heq ▸ he')
      rw [Function.update_of_ne hed]
      exact hmaps

/-- `c` has a thread. -/
theorem thread (h : SizeInv L ⟨s, dirs⟩) (hc : s.Live c) (hcp : c ≠ p) (hlt : s.nextpid < 2 ^ 31 - 1) {k : Page} {pass : ℚ}
    {f : Files} {usz : Nat} : SizeInv L ⟨(s.threaded c p k pass f).threadUp p usz (s.proc c).sz, dirs⟩ := by
  have hborn := @Kernel.threadUp_born s c p k pass f usz (s.proc c).sz hcp
  set t := (s.threaded c p k pass f).threadUp p usz (s.proc c).sz with ht
  have hsz : (t.proc p).sz = (s.proc c).sz := by
    rw [ht, Kernel.threadUp, Kernel.upd_proc_same, Kernel.upd_proc_same]
  have hother : ∀ q, q ≠ p → (s.proc q).Sized (t.proc q) := by
    intro q hq
    obtain ⟨m, sh, st, pa, n, hproc⟩ := s.threaded_proc_ne (c := c) k pass f hq
    rw [ht, Kernel.threadUp, Kernel.upd_proc_ne _ _ hq, Kernel.upd_proc_ne _ _ hq, hproc]
    exact Proc.sized_withShare _ _ _ _ _ _
  have hlive : s.live ⊆ t.live := by
    have heq : t.live = insert k s.live := @Kernel.threaded_live s c p k pass f
    rw [heq]
    exact Finset.subset_insert _ _
  have hnext : t.nextpid = s.nextpid + 1 :=
    (@Kernel.claims_threadUp s c p k pass f usz (s.proc c).sz).nextpid_eq h.nextpid_pos hlt
  clear_value t
  -- The new thread has the memory of `c`: it can be replaced by `c` throughout.
  have hlike : ∀ q, t.Live q → ∃ q', s.Live q' ∧ (t.proc q).pid = (s.proc q').pid ∧ (t.proc q).sz = (s.proc q').sz ∧
      (t.proc q).pgdir = (s.proc q').pgdir := by
    intro q hq
    by_cases hqp : q = p
    · exact ⟨c, hc, hqp ▸ hborn.pid, hqp ▸ hsz, hqp ▸ hborn.pgdir⟩
    · have hk := hother q hqp
      exact ⟨q, hk.state.live.mp hq, hk.pid, hk.sz, hk.pgdir⟩
  refine ⟨?_, fun q => ?_, fun a b ha hb => ?_, fun a b ha hb => ?_, fun q hq => ?_⟩
  · have := h.nextpid_pos
    dsimp only at this ⊢
    omega
  · dsimp only
    rw [hnext]
    by_cases hqp : q = p
    · rw [hqp, hborn.pid]
      exact (h.pid_lt c).trans (Int.lt_succ _)
    · rw [(hother q hqp).pid]
      exact (h.pid_lt q).trans (Int.lt_succ _)
  · obtain ⟨a', ha', h₁, h₂, h₃⟩ := hlike a ha
    obtain ⟨b', hb', h₄, h₅, h₆⟩ := hlike b hb
    dsimp only
    rw [h₁, h₂, h₃, h₄, h₅, h₆]
    exact h.group a' b' ha' hb'
  · obtain ⟨a', ha', h₁, h₂, h₃⟩ := hlike a ha
    obtain ⟨b', hb', h₄, h₅, h₆⟩ := hlike b hb
    dsimp only
    rw [h₁, h₃, h₄, h₆]
    exact h.owner a' b' ha' hb'
  · obtain ⟨q', hq', h₁, h₂, h₃⟩ := hlike q hq
    obtain ⟨hpos, hkern, d, hd, hd', hmaps⟩ := h.mapped q' hq'
    dsimp only
    rw [h₂, h₃]
    exact ⟨hpos, hkern, d, hd, hlive hd', hmaps⟩

theorem threadDown (h : SizeInv L ⟨s, dirs⟩) (hcp : c ≠ p) (hlt : s.nextpid < 2 ^ 31 - 1) {k : Page} {pass : ℚ}
    {f : Files} : SizeInv L ⟨(s.threaded c p k pass f).threadDown p, dirs⟩ := by
  have hnext := (@Kernel.claims_threadDown s c p k pass f).nextpid_eq h.nextpid_pos hlt
  refine h.drop (fun q hq => ?_) (fun hl => Kernel.drops_threadDown.unused hl.1) (by omega) ?_ ?_
  · obtain ⟨m, sh, st, pa, n, hproc⟩ := s.threaded_proc_ne (c := c) k pass f hq
    rw [Kernel.threadDown, Kernel.upd_proc_ne _ _ hq, hproc]
    exact Proc.sized_withShare _ _ _ _ _ _
  · rw [(@Kernel.threadDown_proc_same s c p k pass f hcp).1, hnext]
    exact (h.pid_lt c).trans (Int.lt_succ _)
  · have heq : ((s.threaded c p k pass f).threadDown p).live = insert k s.live :=
      @Kernel.threaded_live s c p k pass f
    rw [heq]
    exact Finset.subset_insert _ _

/-- The memory of a process grows or shrinks, and all of its threads know. -/
theorem resize (h : SizeInv L ⟨s, dirs⟩) (hc : s.Live c) {d : Page} (hd : (s.proc c).pgdir = some d) {n : Int} {new : Nat}
    (hnew : (new : Int) = (s.proc c).sz + n) (hpos : 0 < new) (hlt : new < KERNBASE) {top : Page → Nat} {D : Dir}
    (hD : D.Maps L new) : SizeInv L ⟨Kernel.resized { s with top := top } c n new, Function.update dirs d D⟩ := by
  set t := Kernel.resized { s with top := top } c n new with ht
  have hgrown : ∀ q, s.Live q → (s.proc q).pid = (s.proc c).pid → t.proc q = { s.proc q with sz := new } := by
    intro q hq hpid
    by_cases hqc : q = c
    · rw [ht, hqc, Kernel.resized_proc_same]
    · rw [ht, Kernel.resized_proc_other (s := { s with top := top }) hqc hpid]
      have hsz := (h.group q c hq hc hpid).1
      dsimp only at hsz ⊢
      have hkern : KERNBASE = 2 ^ 31 := rfl
      have hval : grownSize (s.proc q).sz n = new := by
        unfold grownSize
        omega
      rw [hval]
  have hother : ∀ q, (s.proc q).pid ≠ (s.proc c).pid → t.proc q = s.proc q := fun q hpid =>
    Kernel.resized_proc_ne hpid
  have hkeep : ∀ q, (t.proc q).state = (s.proc q).state ∧ (t.proc q).pid = (s.proc q).pid ∧
      (t.proc q).pgdir = (s.proc q).pgdir := by
    intro q
    by_cases hpid : (s.proc q).pid = (s.proc c).pid
    · by_cases hqc : q = c
      · rw [ht, hqc, Kernel.resized_proc_same]
        exact ⟨rfl, rfl, rfl⟩
      · rw [ht, Kernel.resized_proc_other (s := { s with top := top }) hqc hpid]
        exact ⟨rfl, rfl, rfl⟩
    · rw [hother q hpid]
      exact ⟨rfl, rfl, rfl⟩
  have hlive : ∀ q, t.Live q → s.Live q := by
    intro q hq
    unfold Kernel.Live at hq ⊢
    rwa [(hkeep q).1] at hq
  have hnext : t.nextpid = s.nextpid := rfl
  have hpages : t.live = s.live := rfl
  clear_value t
  refine ⟨hnext ▸ h.nextpid_pos, fun q => ?_, fun a b ha hb hab => ?_, fun a b ha hb hab => ?_, fun q hq => ?_⟩
  · dsimp only
    rw [(hkeep q).2.1, hnext]
    exact h.pid_lt q
  · dsimp only at ha hb hab ⊢
    rw [(hkeep a).2.1, (hkeep b).2.1] at hab
    obtain ⟨hsz, hdir⟩ := h.group a b (hlive a ha) (hlive b hb) hab
    refine ⟨?_, by rw [(hkeep a).2.2, (hkeep b).2.2]; exact hdir⟩
    by_cases hpid : (s.proc a).pid = (s.proc c).pid
    · rw [hgrown a (hlive a ha) hpid, hgrown b (hlive b hb) (hab.symm.trans hpid)]
    · rw [hother a hpid, hother b fun hb => hpid (hab.trans hb)]
      exact hsz
  · dsimp only at ha hb hab ⊢
    rw [(hkeep a).2.2, (hkeep b).2.2] at hab
    rw [(hkeep a).2.1, (hkeep b).2.1]
    exact h.owner a b (hlive a ha) (hlive b hb) hab
  · dsimp only at hq ⊢
    rw [(hkeep q).2.2, hpages]
    obtain ⟨h₁, h₂, e, he, he', hmaps⟩ := h.mapped q (hlive q hq)
    by_cases hpid : (s.proc q).pid = (s.proc c).pid
    · rw [hgrown q (hlive q hq) hpid]
      have hed : e = d := by
        have hdir := (h.group q c (hlive q hq) hc hpid).2
        dsimp only at hdir he
        exact Option.some.inj (he.symm.trans (hdir.trans hd))
      refine ⟨hpos, hlt, e, he, he', ?_⟩
      rw [hed, Function.update_self]
      exact hD
    · rw [hother q hpid]
      refine ⟨h₁, h₂, e, he, he', ?_⟩
      rw [Function.update_of_ne]
      · exact hmaps
      · rintro rfl
        exact hpid (h.owner q c (hlive q hq) hc (he.trans hd.symm))

/-- `c` has a new program, and the other threads of its process are zombies. -/
theorem exec (h : SizeInv L ⟨s, dirs⟩) (hc : s.Live c) {old dir : Page} (hold : (s.proc c).pgdir = some old)
    {s' : Kernel} (hr : s.Reimages s' c dir) (hdir : dir ∉ s.live) (hz : s'.Zombified t c) {D : Dir} {size : Nat}
    (hsz : (s'.proc c).sz = size) (hpos : 0 < size) (hlt : size < KERNBASE) (hD : D.Maps L size) :
    SizeInv L ⟨t.freeDir c old, Function.update dirs dir D⟩ := by
  have hsame : ∀ q, (s'.proc q).pid ≠ (s'.proc c).pid → t.proc q = s'.proc q := fun q hq => hz.other q fun h => hq h.1
  have htc : t.proc c = s'.proc c := hz.other c fun h => h.2 rfl
  have hother : ∀ q, q ≠ c → t.Live q → (s.proc q).pid ≠ (s.proc c).pid ∧ s.Live q ∧ (t.proc q).pid = (s.proc q).pid ∧
      (t.proc q).sz = (s.proc q).sz ∧ (t.proc q).pgdir = (s.proc q).pgdir := by
    intro q hqc hq
    have hpid : (s'.proc q).pid ≠ (s'.proc c).pid := by
      intro hpid
      exact hq.2 ((hz.retires.zombie q).mpr (.inr ⟨hpid, hqc⟩))
    obtain ⟨main, there, hproc, -⟩ := hr.other q hqc
    unfold Kernel.Live at hq ⊢
    rw [hsame q hpid, hproc] at hq ⊢
    rw [hr.pid_eq, hr.pid_eq] at hpid
    exact ⟨hpid, hq, rfl, rfl, rfl⟩
  have hpid : (t.proc c).pid = (s.proc c).pid := by rw [htc, hr.pid]
  have hpgdir : (t.proc c).pgdir = some dir := by rw [htc, hr.pgdir]
  have hsize : (t.proc c).sz = size := by rw [htc, hsz]
  have hne : ∀ q, s.Live q → (s.proc q).pgdir ≠ some dir := by
    intro q hq heq
    obtain ⟨-, -, e, he, he', -⟩ := h.mapped q hq
    obtain rfl : e = dir := Option.some.inj (he.symm.trans heq)
    exact hdir he'
  have hnext : t.nextpid = s.nextpid := hz.retires.rest.nextpid.trans hr.nextpid
  have hlive : t.live = insert dir s.live := hz.retires.rest.live.trans hr.live
  refine ⟨hnext ▸ h.nextpid_pos, fun q => ?_, fun a b ha hb hab => ?_, fun a b ha hb hab => ?_, fun q hq => ?_⟩
  · change (t.proc q).pid < t.nextpid
    rw [(hz.retires.same q).pid, hr.pid_eq, hnext]
    exact h.pid_lt q
  · change t.Live a at ha
    change t.Live b at hb
    change (t.proc a).pid = (t.proc b).pid at hab
    change (t.proc a).sz = (t.proc b).sz ∧ (t.proc a).pgdir = (t.proc b).pgdir
    by_cases hac : a = c
    · by_cases hbc : b = c
      · rw [hac, hbc]
        exact ⟨rfl, rfl⟩
      · obtain ⟨hbpid, -, hbp, -⟩ := hother b hbc hb
        rw [hac, hpid, hbp] at hab
        exact absurd hab.symm hbpid
    · obtain ⟨hapid, hal, hap, hasz, hadir⟩ := hother a hac ha
      by_cases hbc : b = c
      · rw [hbc, hpid, hap] at hab
        exact absurd hab hapid
      · obtain ⟨-, hbl, hbp, hbsz, hbdir⟩ := hother b hbc hb
        rw [hap, hbp] at hab
        rw [hasz, hbsz, hadir, hbdir]
        exact h.group a b hal hbl hab
  · change t.Live a at ha
    change t.Live b at hb
    change (t.proc a).pgdir = (t.proc b).pgdir at hab
    change (t.proc a).pid = (t.proc b).pid
    by_cases hac : a = c
    · by_cases hbc : b = c
      · rw [hac, hbc]
      · obtain ⟨-, hbl, -, -, hbdir⟩ := hother b hbc hb
        rw [hac, hpgdir, hbdir] at hab
        exact absurd hab.symm (hne b hbl)
    · obtain ⟨-, hal, hap, -, hadir⟩ := hother a hac ha
      by_cases hbc : b = c
      · rw [hbc, hpgdir, hadir] at hab
        exact absurd hab (hne a hal)
      · obtain ⟨-, hbl, hbp, -, hbdir⟩ := hother b hbc hb
        rw [hadir, hbdir] at hab
        rw [hap, hbp]
        exact h.owner a b hal hbl hab
  · change t.Live q at hq
    change 0 < (t.proc q).sz ∧ (t.proc q).sz < KERNBASE ∧ ∃ d, (t.proc q).pgdir = some d ∧ d ∈ t.live.erase old ∧
      (Function.update dirs dir D d).Maps L (t.proc q).sz
    rw [hlive]
    obtain ⟨-, -, o, ho, ho', -⟩ := h.mapped c hc
    obtain rfl : o = old := Option.some.inj (ho.symm.trans hold)
    by_cases hqc : q = c
    · rw [hqc, hsize, hpgdir]
      refine ⟨hpos, hlt, dir, rfl, Finset.mem_erase.mpr ⟨fun heq => hdir (heq ▸ ho'), Finset.mem_insert_self _ _⟩, ?_⟩
      rw [Function.update_self]
      exact hD
    · obtain ⟨hqpid, hql, -, hqsz, hqdir⟩ := hother q hqc hq
      rw [hqsz, hqdir]
      obtain ⟨h₁, h₂, e, he, he', hmaps⟩ := h.mapped q hql
      refine ⟨h₁, h₂, e, he, Finset.mem_erase.mpr ⟨?_, Finset.mem_insert_of_mem he'⟩, ?_⟩
      · rintro rfl
        exact hqpid (h.owner q c hql hc (he.trans hold.symm))
      · have hed : e ≠ dir := fun heq => hdir (heq ▸ he')
        rw [Function.update_of_ne hed]
        exact hmaps

end Paged.SizeInv

/-! ## Steps -/

/-- `sbrk` leaves some memory; when `exec` sets up a program there is room for the stacks of
    all threads, below the kernel and in memory; pids do not run out. -/
def MemOk (m : Paged) (c : Slot) (call : MemCall) (mem : Mem) : Prop :=
  match call with
  | .fork _ | .threadCreate _ _ => m.kernel.nextpid < 2 ^ 31 - 1
  | .sbrk n => 0 ≤ n ∨ 0 < (m.kernel.proc c).sz + n
  | .exec ip argv => ∀ usz, Commits ip argv mem.free.length usz → StacksFit mem.free.length usz NPROC

namespace Paged.SizeInv

variable {L : Layout} {m m' : Paged} {mem : Mem} {s t : Kernel} {c : Slot} {dirs : Page → Dir}

theorem fork_none (h : SizeInv L ⟨s, dirs⟩) (hlt : s.nextpid < 2 ^ 31 - 1) {stack : Option Page}
    (ha : s.After c (.fork stack none) t) : SizeInv L ⟨t, dirs⟩ := by
  cases ha with
  | mild hmild _ _ => exact hmild.elim
  | full _ => exact h
  | forkSpoiled _ _ => exact h.spoil hlt

theorem fork_some (h : SizeInv L ⟨s, dirs⟩) (hc : s.Live c) (hlt : s.nextpid < 2 ^ 31 - 1) {stack : Option Page} {d : Page}
    {D : Dir} (hstack : stack ≠ none) (hslot : s.freeSlot ≠ none) (hD : D.Maps L (s.proc c).sz)
    (ha : s.After c (.fork stack (some d)) t) : SizeInv L ⟨t, Function.update dirs d D⟩ := by
  cases ha with
  | mild hmild _ _ => exact hmild.elim
  | full hfull => exact absurd hfull hslot
  | forkSpoiled _ hbad => exact absurd hbad (not_or.mpr ⟨hstack, Option.some_ne_none d⟩)
  | forked _ _ hd _ => exact h.fork hc hlt hd hD

theorem threadCreate (h : SizeInv L ⟨s, dirs⟩) (hc : s.Live c) (hlt : s.nextpid < 2 ^ 31 - 1) {stack : Option Page} {junk : ℚ}
    (ha : s.After c (.threadCreate stack junk) t) : SizeInv L ⟨t, dirs⟩ := by
  cases ha with
  | mild hmild _ _ => exact hmild.elim
  | noThread _ => exact h
  | createSpoiled _ _ => exact h.spoil hlt
  | threadUp _ hp _ => exact h.thread hc (Kernel.ne_freeSlot hc.1 hp) hlt
  | threadDown _ hp _ _ => exact h.threadDown (Kernel.ne_freeSlot hc.1 hp) hlt

theorem execOk (h : SizeInv L ⟨s, dirs⟩) (hc : s.Live c) {dir : Page} {usz : Nat} {D : Dir} (hpos : 0 < usz)
    (hlt : usz + NPROC * (2 * PGSIZE) < KERNBASE) (hD : D.Maps L (usz + NPROC * (2 * PGSIZE)))
    (ha : s.After c (.exec (.ok dir usz)) t) : SizeInv L ⟨t, Function.update dirs dir D⟩ := by
  cases ha with
  | mild hmild _ _ => exact hmild.elim
  | execed _ hold hfits hz =>
    refine h.exec hc hold Kernel.reimages_execed hfits.1 hz ?_ (by omega) hlt hD
    rw [Kernel.execed_proc_same]
    rfl
  | @promoted _ p _ _ _ _ hold _ hfits hz =>
    obtain ⟨b, hb⟩ := @Kernel.promoted_proc_same s c p dir usz
    refine h.exec hc hold Kernel.reimages_promoted hfits.1 hz ?_ (by omega) hlt hD
    rw [hb]
    rfl

/-- The directory `d` has changed, but it maps the same. -/
theorem same (h : SizeInv L ⟨s, dirs⟩) (hc : s.Live c) {d : Page} (hd : (s.proc c).pgdir = some d) {top : Page → Nat}
    {D : Dir} (hD : D.Maps L (s.proc c).sz) : SizeInv L ⟨{ s with top := top }, Function.update dirs d D⟩ := by
  refine ⟨h.nextpid_pos, h.pid_lt, h.group, h.owner, fun q hq => ?_⟩
  obtain ⟨hpos, hlt, e, he, hlive, hmaps⟩ := h.mapped q hq
  refine ⟨hpos, hlt, e, he, hlive, ?_⟩
  dsimp only at he hmaps ⊢
  by_cases hed : e = d
  · rw [hed, Function.update_self, (h.group q c hq hc (h.owner q c hq hc (he.trans (hed ▸ hd.symm)))).1]
    exact hD
  · rw [Function.update_of_ne hed]
    exact hmaps

theorem planned (h : m.SizeInv L) {call : MemCall} {r : Outcome Int} {sys : SysCall} (hmem : mem.Sound L)
    (hstep : m.Step L c call mem r m' sys) : m.Planned L c mem call sys m'.dirs := by
  have hc := Kernel.live_of_running hstep.ready.running
  obtain ⟨hpos, hlt, -⟩ := h.mapped c hc
  obtain ⟨mem', hplan⟩ := hstep.plan
  exact (Paged.wp_plan hmem (h.dirOf hc) hpos hlt hstep.inRange).of_run hplan

/-- What `sbrk` comes to. -/
theorem sbrk_cases (h : m.SizeInv L) {n : Int} {r : Outcome Int} {sys : SysCall} (hmem : mem.Sound L)
    (hstep : m.Step L c (.sbrk n) mem r m' sys) :
    ∃ new D, Paging.Resized L (m.kernel.proc c).sz n (m.dirOf c) new D ∧ m'.dirs = m.setDir c D ∧
      m.kernel.Grew c n new r m'.kernel := by
  have hplanned := h.planned hmem hstep
  obtain ⟨-, hready, hrun⟩ := hstep
  obtain ⟨t, dirs'⟩ := m'
  cases hplanned with
  | @sbrk _ new D hres hnew =>
    have hgrew := (@wp_sbrk m.kernel (fun _ => False) c n (decide (new ≠ 0))).of_run hrun
    rw [hnew] at hgrew
    exact ⟨new, D, hres, rfl, hgrew⟩

theorem sbrk (h : m.SizeInv L) {n : Int} {r : Outcome Int} {sys : SysCall} (hmem : mem.Sound L)
    (hok : 0 ≤ n ∨ 0 < (m.kernel.proc c).sz + n) (hstep : m.Step L c (.sbrk n) mem r m' sys) : m'.SizeInv L := by
  have hc := Kernel.live_of_running hstep.ready.running
  obtain ⟨hpos, hlt, d, hd, hlive, hmaps⟩ := h.mapped c hc
  obtain ⟨new, D, hresized, hdirs, hgrew⟩ := h.sbrk_cases hmem hstep
  have hset : m.setDir c D = Function.update m.dirs d D := by
    unfold Paged.setDir
    rw [hd]
  obtain ⟨s, dirs⟩ := m
  obtain ⟨t, dirs'⟩ := m'
  dsimp only at *
  subst hdirs
  rw [hset]
  cases hgrew with
  | fails top hn hsz =>
    cases hresized with
    | done new hnew hpos' => omega
    | short _ hmaps' _ => exact h.same hc hd hmaps'
    | emptied hzero _ => omega
    | wrapped hneg => omega
  | grows top hnot =>
    cases hresized with
    | done new hnew hpos' hlt' hmaps' => exact h.resize hc hd hnew hpos' hlt' hmaps'
    | short hn _ _ => exact absurd ⟨hn.ne', rfl⟩ hnot
    | emptied hzero _ => omega
    | wrapped hneg => omega

theorem step (h : m.SizeInv L) {call : MemCall} {r : Outcome Int} {sys : SysCall} (hmem : mem.Sound L)
    (hok : MemOk m c call mem) (hstep : m.Step L c call mem r m' sys) : m'.SizeInv L := by
  have hc := Kernel.live_of_running hstep.ready.running
  have ha := hstep.ready.after.of_run hstep.run
  have hplanned := h.planned hmem hstep
  obtain ⟨t, dirs'⟩ := m'
  dsimp only at ha hplanned
  cases call with
  | sbrk n => exact h.sbrk hmem hok hstep
  | fork stack =>
    cases hplanned with
    | forkFails => exact h.fork_none hok ha
    | forks hstack hslot hd => exact h.fork_some hc hok hstack hslot hd ha
  | threadCreate stack junk =>
    cases hplanned with
    | threadCreate => exact h.threadCreate hc hok ha
  | exec ip argv =>
    cases hplanned with
    | bad _ =>
      cases ha with
      | mild hmild _ _ => exact hmild.elim
      | notLoaded => exact h
    | short hcommit hno => exact absurd (hok _ hcommit) hno
    | loaded hcommit hfits _ hd => exact h.execOk hc hcommit.pos.1 hfits.1 hd ha

theorem start (stack dir : Page) (root : InodePtr) {D : Dir} (hD : D.Maps L PGSIZE) :
    (Paged.start stack dir root D).SizeInv L := by
  have hzero : ∀ q, (boot stack dir root).Live q → q = 0 := fun q hq => eq_zero_of_boot_used hq.1
  refine ⟨?_, fun q => ?_, fun a b ha hb _ => ?_, fun a b ha hb _ => ?_, fun q hq => ?_⟩
  · change (0 : Int) < 2
    decide
  · change ((boot stack dir root).proc q).pid < 2
    by_cases hq : q = 0
    · rw [hq]
      change (1 : Int) < 2
      decide
    · rw [boot_proc_ne hq]
      change (0 : Int) < 2
      decide
  · rw [hzero a ha, hzero b hb]
    exact ⟨rfl, rfl⟩
  · rw [hzero a ha, hzero b hb]
  · rw [hzero q hq]
    have hmem : dir ∈ (boot stack dir root).live := Finset.mem_insert_self _ _
    refine ⟨?_, ?_, dir, rfl, hmem, hD⟩
    · change 0 < PGSIZE
      decide
    · change PGSIZE < KERNBASE
      decide

end Paged.SizeInv

theorem Paged.Run.sizeInv {L : Layout} {stack dir : Page} {root : InodePtr} {D : Dir} (hD : D.Maps L PGSIZE) {m : Paged}
    (h : Paged.Run L MemOk (.start stack dir root D) m) : m.SizeInv L := by
  induction h with
  | refl => exact .start stack dir root hD
  | idle _ hidle ih => exact ih.idle hidle
  | call _ hmem hok hstep ih => exact ih.step hmem hok hstep

/-! ## sbrk -/

/-- `sbrk` succeeds, all threads have `n` bytes more and exactly the pages of the new size are
    mapped; or it fails, and sizes and mappings are as before. -/
def Paged.SbrkExact (L : Layout) (m : Paged) (c : Slot) (n : Int) (mem : Mem) : Prop :=
  ∃ r m' sys, m.Step L c (.sbrk n) mem r m' sys ∧
    ((r = .ret 0 ∧ (∀ q, m.kernel.Live q → (m.kernel.proc q).pid = (m.kernel.proc c).pid →
        ((m'.kernel.proc q).sz : Int) = (m.kernel.proc q).sz + n) ∧
        ∀ q < userPages, ((m'.dirOf c).pte q).Present ↔ q * PGSIZE < ((m.kernel.proc c).sz + n).toNat) ∨
      (r = .ret (-1) ∧ (∀ q, (m'.kernel.proc q).sz = (m.kernel.proc q).sz) ∧
        ∀ q < userPages, (m'.dirOf c).page q = (m.dirOf c).page q))

namespace Paged.SizeInv

variable {L : Layout} {m m' : Paged} {c : Slot} {n : Int} {mem : Mem}

theorem exists_plan_sbrk (h : m.SizeInv L) (hmem : mem.Sound L) (hc : m.kernel.Live c) (hn : -2 ^ 31 ≤ n ∧ n < 2 ^ 31) :
    ∃ r mem', m.plan L c (.sbrk n) mem = .ok (r, mem') ∧ m.Planned L c mem (.sbrk n) r.1 r.2 := by
  obtain ⟨hpos, hlt, -⟩ := h.mapped c hc
  have hplan := Paged.wp_plan hmem (h.dirOf hc) hpos hlt (show (MemCall.sbrk n).InRange from hn)
  exact (hplan.mono (fun _ _ hr => hr) fun _ ⟨_, _, he, _⟩ => by cases he).run_ok

/-- `sbrk` returns. -/
theorem sbrk_step (h : m.SizeInv L) (hmem : mem.Sound L) (hrun : (m.kernel.proc c).state = .running)
    (hjoin : (m.kernel.proc c).joining = none) (hn : -2 ^ 31 ≤ n ∧ n < 2 ^ 31) :
    ∃ r m' sys, m.Step L c (.sbrk n) mem r m' sys := by
  obtain ⟨⟨sys, dirs⟩, mem', hplan, hplanned⟩ := h.exists_plan_sbrk hmem (Kernel.live_of_running hrun) hn
  cases hplanned with
  | @sbrk _ new D _ _ =>
    obtain ⟨r, t, hrun', -⟩ := (@wp_sbrk m.kernel (fun _ => False) c n (decide (new ≠ 0))).run_ok
    exact ⟨r, ⟨t, m.setDir c D⟩, _, ⟨mem', hplan⟩, ⟨hrun, fun hne => absurd hjoin hne, hn⟩, hrun'⟩

/-- The directory of the caller after `sbrk`. -/
theorem dirOf_grew (h : m.SizeInv L) (hc : m.kernel.Live c) {new : Nat} {r : Outcome Int} {D : Dir}
    (hgrew : m.kernel.Grew c n new r m'.kernel) (hdirs : m'.dirs = m.setDir c D) : m'.dirOf c = D := by
  have hsame : (m'.kernel.proc c).pgdir = (m.kernel.proc c).pgdir := by
    generalize m'.kernel = t at hgrew
    cases hgrew with
    | fails top _ _ => rfl
    | grows top _ => rw [Kernel.resized_proc_same]
  obtain ⟨-, -, d, hd, -⟩ := h.mapped c hc
  unfold Paged.dirOf
  rw [hsame, hd, hdirs]
  unfold Paged.setDir
  rw [hd]
  exact Function.update_self _ _ _

/-- `sbrk` does what it should unless it takes away all of the memory, or more. -/
theorem sbrkExact_iff (h : m.SizeInv L) (hmem : mem.Sound L) (hrun : (m.kernel.proc c).state = .running)
    (hjoin : (m.kernel.proc c).joining = none) (hn : -2 ^ 31 ≤ n ∧ n < 2 ^ 31) :
    m.SbrkExact L c n mem ↔ 0 ≤ n ∨ 0 < (m.kernel.proc c).sz + n := by
  have hc := Kernel.live_of_running hrun
  have hdir := h.dirOf hc
  obtain ⟨hpos, hlt, -⟩ := h.mapped c hc
  have huser : 0 < userPages := by
    rw [Paging.userPages_eq]
    decide
  constructor
  · rintro ⟨r, m', sys, hstep, hexact⟩
    obtain ⟨new, D, hresized, hdirs, hgrew⟩ := h.sbrk_cases hmem hstep
    rw [h.dirOf_grew hc hgrew hdirs] at hexact
    generalize m'.kernel = t at hgrew hexact
    cases hresized with
    | done new hnew hpos' => exact .inr (by omega)
    | short hn' _ _ => exact .inl hn'.le
    | emptied hzero hmaps =>
      -- It fails, but the first page is gone.
      cases hgrew with
      | grows _ hnot => exact absurd ⟨by omega, rfl⟩ hnot
      | fails top _ _ =>
        rcases hexact with ⟨hr, -⟩ | ⟨-, -, hsame⟩
        · cases hr
        · have hgone : ¬ (D.pte 0).Present := fun hpres => Nat.not_lt_zero _ ((hmaps.present 0 huser).mp hpres)
          rw [← Paging.Dir.page_eq_none, hsame 0 huser, Paging.Dir.page_eq_none] at hgone
          exact absurd ((hdir.present 0 huser).mpr (by omega)) hgone
    | wrapped hneg =>
      -- It succeeds, but the caller has as much memory as before.
      cases hgrew with
      | fails _ _ hzero => omega
      | grows top _ =>
        rcases hexact with ⟨-, hsizes, -⟩ | ⟨hr, -⟩
        · have hsame := hsizes c hc rfl
          rw [Kernel.resized_proc_same] at hsame
          dsimp only at hsame
          omega
        · cases hr
  · intro hok
    obtain ⟨r, m', sys, hstep⟩ := @sbrk_step L m c n mem h hmem hrun hjoin hn
    obtain ⟨new, D, hresized, hdirs, hgrew⟩ := h.sbrk_cases hmem hstep
    refine ⟨r, m', sys, hstep, ?_⟩
    rw [h.dirOf_grew hc hgrew hdirs]
    generalize m'.kernel = t at hgrew
    cases hresized with
    | done new hnew hpos' hlt' hmaps =>
      cases hgrew with
      | fails _ _ hzero => omega
      | grows top _ =>
        refine .inl ⟨rfl, fun q hq hpid => ?_, ?_⟩
        · have hsz := (h.group q c hq hc hpid).1
          by_cases hqc : q = c
          · rw [hqc, Kernel.resized_proc_same]
            exact hnew
          · rw [Kernel.resized_proc_other (s := { m.kernel with top := top }) hqc hpid]
            have hkern : KERNBASE = 2 ^ 31 := rfl
            dsimp only
            unfold grownSize
            omega
        · rw [← hnew, Int.toNat_natCast]
          exact hmaps.present
    | short hn' _ hsame =>
      cases hgrew with
      | grows _ hnot => exact absurd ⟨hn'.ne', rfl⟩ hnot
      | fails top _ _ => exact .inr ⟨rfl, fun _ => rfl, hsame⟩
    | emptied hzero _ => omega
    | wrapped hneg => omega

end Paged.SizeInv

/-- In every run in which `sbrk` leaves some memory and `exec` has room for all stacks, the
    threads of a process have one size and one page directory; the size is below the kernel,
    and every page below it is present. There `sbrk(n)` does what it should just if `n` is not
    negative or leaves some memory. -/
theorem sizes_agree {L : Layout} {stack dir : Page} {root : InodePtr} {D : Dir} (hD : D.Maps L PGSIZE) {m : Paged}
    (h : Paged.Run L MemOk (.start stack dir root D) m) :
    (∀ p q, m.kernel.Live p → m.kernel.Live q → (m.kernel.proc p).pid = (m.kernel.proc q).pid →
      (m.kernel.proc p).sz = (m.kernel.proc q).sz ∧ (m.kernel.proc p).pgdir = (m.kernel.proc q).pgdir) ∧
    (∀ q, m.kernel.Live q → (m.kernel.proc q).sz < KERNBASE ∧ ∃ d, (m.kernel.proc q).pgdir = some d ∧
      ∀ i, i * PGSIZE < (m.kernel.proc q).sz → ((m.dirs d).pte i).Present) ∧
    ∀ c n mem, mem.Sound L → (m.kernel.proc c).state = .running → (m.kernel.proc c).joining = none →
      -2 ^ 31 ≤ n ∧ n < 2 ^ 31 → (m.SbrkExact L c n mem ↔ 0 ≤ n ∨ 0 < (m.kernel.proc c).sz + n) := by
  have hinv := h.sizeInv hD
  refine ⟨hinv.group, fun q hq => ?_, fun c n mem hmem hrun hjoin hn => hinv.sbrkExact_iff hmem hrun hjoin hn⟩
  obtain ⟨-, hlt, d, hd, -, hmaps⟩ := hinv.mapped q hq
  refine ⟨hlt, d, hd, fun i hi => (hmaps.present i ?_).mpr hi⟩
  exact (lt_pageCount.mpr hi).trans_le (Paging.pageCount_le_userPages.mpr hlt.le)

/-! ## The first process -/

theorem onePage_pte (p : Nat) : Paging.onePage.pte p =
    if p = 0 then ⟨2002, Paging.PTE_P ||| Paging.PTE_W ||| Paging.PTE_U⟩ else .zero := by
  have hzero : p = 0 ↔ p / Paging.NPTENTRIES = 0 ∧ p % Paging.NPTENTRIES = 0 := Paging.Dir.page_eq_iff (p := 0)
  unfold Paging.Dir.pte Paging.onePage
  dsimp only
  split
  · next hnone =>
    rw [ite_eq_right_iff] at hnone
    rw [if_neg fun h => Option.some_ne_none _ (hnone (hzero.mp h).1)]
  · next t hsome =>
    obtain ⟨hdir, ht⟩ := Option.ite_none_right_eq_some.mp hsome
    cases ht
    simp only [hzero, hdir, true_and]

theorem onePage_maps : Paging.onePage.Maps Paging.smallLayout PGSIZE where
  valid a f hf := by
    have hvalid : ∀ g, 2000 ≤ g → g ≤ 2002 → Paging.smallLayout.Valid g := fun g h₁ h₂ =>
      ⟨le_trans (by decide) h₁, lt_of_le_of_lt h₂ (by decide)⟩
    rcases a with u | i | p
    · obtain rfl : f = 2000 := Multiset.mem_singleton.mp hf
      exact hvalid _ (by decide) (by decide)
    · have hf' : f ∈ (Paging.onePage.tableAt i).toList := hf
      rw [Option.mem_toList, Paging.Dir.tableAt, Option.map_eq_some_iff] at hf'
      obtain ⟨t, ht, rfl⟩ := hf'
      obtain ⟨-, ht⟩ := Option.ite_none_right_eq_some.mp ht
      cases ht
      exact hvalid _ (by decide) (by decide)
    · have hf' : f ∈ (Paging.onePage.pte p).held := hf
      rw [onePage_pte] at hf'
      split at hf'
      · obtain rfl : f = 2002 := Multiset.mem_singleton.mp hf'
        exact hvalid _ (by decide) (by decide)
      · exact absurd hf' (Multiset.notMem_zero f)
  present q hq := by
    have hlt : q * PGSIZE < PGSIZE ↔ q = 0 := by
      unfold PGSIZE
      omega
    rw [onePage_pte, hlt]
    split
    · next h => exact iff_of_true (by decide) h
    · next h => exact iff_of_false Paging.Pte.not_present_zero h

/-- It has been picked. -/
def Paged.first : Paged := ⟨(boot 3000 2000 0).dispatch 0, fun _ => Paging.onePage⟩

theorem Paged.run_first {Ok : Paged → Slot → MemCall → Mem → Prop} :
    Paged.Run Paging.smallLayout Ok (.start 3000 2000 0 Paging.onePage) Paged.first :=
  .idle .refl (Kernel.idle_dispatch (.inr (.inl rfl)))

/-- `MemOk`, as far as the kernel knows. -/
def LeavesMemory (s : Kernel) (c : Slot) : SysCall → Prop
  | .sbrk n _ => 0 < (s.proc c).sz + n
  | _ => s.nextpid < 2 ^ 31 - 1

instance (s : Kernel) (c : Slot) : (call : SysCall) → Decidable (LeavesMemory s c call)
  | .sbrk n _ => inferInstanceAs (Decidable (0 < ((s.proc c).sz : Int) + n))
  | .fork _ _ | .threadCreate _ _ | .threadExit _ | .exit | .exec _ | .wait | .threadJoin _ | .kill _ | .setCpuShare _
  | .file _ => inferInstanceAs (Decidable (s.nextpid < 2 ^ 31 - 1))

/-- It loads a program, and a thread of it gives back a page. -/
def pageGivenBack : List (Slot × SysCall) :=
  [(0, .exec (.ok 1000 8192)), (0, .threadCreate (some 1500) 0), (1, .sbrk (-4096) true)]

theorem exists_of_play_cons {Ok : Kernel → Slot → SysCall → Prop} [∀ s c call, Decidable (Ok s c call)] {s : Kernel}
    {c : Slot} {call : SysCall} {rest : List (Slot × SysCall)} {test : Kernel → Bool}
    (h : (play Ok ((c, call) :: rest) s).any test = true) : ∃ r t, s.Schedulable c ∧ call.Ready (s.dispatch c) c ∧
      Ok (s.dispatch c) c call ∧ call.run c (s.dispatch c) = .ok (r, t) ∧ (play Ok rest t).any test = true := by
  unfold play at h
  split at h
  · next hc =>
    split at h
    · next r hr => exact ⟨r.1, r.2, hc.1, hc.2.1, hc.2.2, hr, h⟩
    · cases h
  · cases h

/-- With 200 frames there are all stacks, and the directory has the first frame. -/
theorem Paged.plan_emptyProgram {n : Nat} (hn : 200 ≤ n) (hle : n ≤ 1000) : ∃ dirs mem',
    Paged.first.plan Paging.smallLayout 0 (.exec (some Host.emptyProgram) []) (Paging.memWith n) =
      .ok ((.exec (.ok 1000 8192), dirs), mem') := by
  have hlen : (Paging.memWith n).free.length = n := List.length_range'
  have hcommit : Commits (some Host.emptyProgram) [] (Paging.memWith n).free.length 8192 :=
    Host.emptyProgram_commits (by omega)
  have hplan := Paged.wp_plan (m := Paged.first) (c := 0) (Paging.memWith_sound hle) onePage_maps (by decide) (by decide)
    (show (MemCall.exec (some Host.emptyProgram) []).InRange from trivial)
  have hnot : ¬ ∃ ip argv, MemCall.exec (some Host.emptyProgram) [] = .exec ip argv ∧ ¬ Paging.PushFits argv := by
    rintro ⟨ip, argv, he, hno⟩
    cases he
    exact hno hcommit.pushFits
  obtain ⟨⟨sys, dirs⟩, mem', hrun, hplanned⟩ := (hplan.mono (fun _ _ hr => hr) fun _ => hnot).run_ok
  refine ⟨dirs, mem', ?_⟩
  rw [hrun]
  cases hplanned with
  | bad hno => exact absurd hcommit (hno _)
  | short hc hno =>
    rw [← hcommit.unique hc, hlen] at hno
    exact absurd ⟨by decide, le_trans (by decide) hn⟩ hno
  | @loaded _ _ usz d hc _ hfirst _ =>
    rw [← hcommit.unique hc]
    have hhead : (Paging.memWith n).free.head? = some 1000 := by
      obtain ⟨k, rfl⟩ : ∃ k, n = k + 1 := ⟨n - 1, by omega⟩
      rfl
    rw [Option.some.inj (hfirst.symm.trans hhead)]

/-- Memory is given back, but not all. -/
theorem Paged.SizeInv.plan_sbrk {L : Layout} {m : Paged} {mem : Mem} {c : Slot} {n : Int} (h : m.SizeInv L)
    (hmem : mem.Sound L) (hc : m.kernel.Live c) (hn : -2 ^ 31 ≤ n ∧ n < 0) (hleft : 0 < (m.kernel.proc c).sz + n) :
    ∃ dirs mem', m.plan L c (.sbrk n) mem = .ok ((.sbrk n true, dirs), mem') := by
  obtain ⟨⟨sys, dirs⟩, mem', hrun, hplanned⟩ := h.exists_plan_sbrk hmem hc ⟨hn.1, by omega⟩
  refine ⟨dirs, mem', ?_⟩
  rw [hrun]
  cases hplanned with
  | sbrk hres _ =>
    cases hres with
    | done new _ hnew =>
      rw [decide_eq_true hnew.ne']
    | short hn' _ _ => omega
    | emptied hzero _ => omega
    | wrapped hneg => omega

/-- Now both have a page less than the image with all its stacks. Two pages can be had again. -/
theorem sizes_agree_threads : ∃ m, Paged.Run Paging.smallLayout MemOk (.start 3000 2000 0 Paging.onePage) m ∧
    m.kernel.Live 0 ∧ m.kernel.Live 1 ∧ (m.kernel.proc 0).pid = (m.kernel.proc 1).pid ∧
    (m.kernel.proc 0).sz = (m.kernel.proc 1).sz ∧ (m.kernel.proc 1).sz = 528384 ∧
    m.SbrkExact Paging.smallLayout 1 8192 (Paging.memWith 10) := by
  have hplay : (play LeavesMemory pageGivenBack (boot 3000 2000 0)).any (fun s => s.Live 0 ∧ s.Live 1 ∧
      (s.proc 0).pid = (s.proc 1).pid ∧ (s.proc 1).sz = 528384 ∧ (s.proc 1).state = .running ∧
      (s.proc 1).joining = none) = true := by decide +kernel
  obtain ⟨r₁, s₁, hsched₁, hready₁, -, hrun₁, hplay⟩ := exists_of_play_cons hplay
  obtain ⟨r₂, s₂, hsched₂, hready₂, hok₂, hrun₂, hplay⟩ := exists_of_play_cons hplay
  obtain ⟨r₃, s₃, hsched₃, hready₃, hok₃, hrun₃, hplay⟩ := exists_of_play_cons hplay
  obtain ⟨hlive₀, hlive₁, hpid, hsz, hrun, hjoin⟩ := of_decide_eq_true hplay
  obtain ⟨n, hn⟩ : ∃ n, n = 200 := ⟨_, rfl⟩
  obtain ⟨dirs₁, mem₁, hplan₁⟩ := Paged.plan_emptyProgram hn.ge (by omega)
  have hok₁ : MemOk Paged.first 0 (.exec (some Host.emptyProgram) []) (Paging.memWith n) := fun usz hc => by
    have hlen : (Paging.memWith n).free.length = n := List.length_range'
    rw [hc.unique (Host.emptyProgram_commits (by omega)), hlen, hn]
    decide
  have hstep₁ : Paged.first.Step Paging.smallLayout 0 _ _ r₁ ⟨s₁, dirs₁⟩ _ := ⟨⟨mem₁, hplan₁⟩, hready₁, hrun₁⟩
  have h₁ := Paged.run_first.call (Paging.memWith_sound (by omega)) hok₁ hstep₁
  have hstep₂ : Paged.Step Paging.smallLayout ⟨s₁.dispatch 0, dirs₁⟩ 0 (.threadCreate (some 1500) 0) (Paging.memWith 0)
      r₂ ⟨s₂, dirs₁⟩ _ := ⟨⟨_, rfl⟩, hready₂, hrun₂⟩
  have hok₂' : MemOk ⟨s₁.dispatch 0, dirs₁⟩ 0 (.threadCreate (some 1500) 0) (Paging.memWith 0) := hok₂
  have h₂ := (h₁.idle (Kernel.idle_dispatch hsched₂)).call (Paging.memWith_sound (Nat.zero_le _)) hok₂' hstep₂
  have hpicked := h₂.idle (Kernel.idle_dispatch hsched₃)
  obtain ⟨dirs₃, mem₃, hplan₃⟩ := (hpicked.sizeInv onePage_maps).plan_sbrk (Paging.memWith_sound (Nat.zero_le _))
    (Kernel.live_of_running hready₃.running) (by decide) hok₃
  have hstep₃ : Paged.Step Paging.smallLayout ⟨s₂.dispatch 1, dirs₁⟩ 1 (.sbrk (-4096)) (Paging.memWith 0)
      r₃ ⟨s₃, dirs₃⟩ _ := ⟨⟨mem₃, hplan₃⟩, hready₃, hrun₃⟩
  have hok₃' : MemOk ⟨s₂.dispatch 1, dirs₁⟩ 1 (.sbrk (-4096)) (Paging.memWith 0) := .inr hok₃
  have h₃ := hpicked.call (Paging.memWith_sound (Nat.zero_le _)) hok₃' hstep₃
  obtain ⟨hsame, -, hexact⟩ := sizes_agree onePage_maps h₃
  exact ⟨_, h₃, hlive₀, hlive₁, hpid, (hsame 0 1 hlive₀ hlive₁ hpid).1, hsz,
    (hexact 1 8192 _ (Paging.memWith_sound (by decide)) hrun hjoin (by decide)).mpr (.inl (by decide))⟩

/-- It gives back its one page: `sbrk` fails, but the page is gone. -/
theorem sbrk_unmaps : ∃ m sys, Paged.Run Paging.smallLayout (fun _ _ _ _ => True) (.start 3000 2000 0 Paging.onePage)
      Paged.first ∧
    Paged.first.Step Paging.smallLayout 0 (.sbrk (-4096)) (Paging.memWith 0) (.ret (-1)) m sys ∧ m.kernel.Live 0 ∧
    (m.kernel.proc 0).sz = 4096 ∧ (m.kernel.proc 0).pgdir = some 2000 ∧ ¬ ((m.dirs 2000).pte 0).Present := by
  have hinv : Paged.first.SizeInv Paging.smallLayout :=
    (Paged.SizeInv.start 3000 2000 0 onePage_maps).idle (Kernel.idle_dispatch (.inr (.inl rfl)))
  have hmem : (Paging.memWith 0).Sound Paging.smallLayout := Paging.memWith_sound (by decide)
  obtain ⟨r, m, sys, hstep⟩ := @Paged.SizeInv.sbrk_step _ Paged.first 0 (-4096) _ hinv hmem rfl rfl (by decide)
  obtain ⟨new, D, hresized, hdirs, hgrew⟩ := hinv.sbrk_cases hmem hstep
  have hsz : (Paged.first.kernel.proc 0).sz = 4096 := rfl
  have hset : m.dirs 2000 = D := by
    have hone : Paged.first.setDir 0 D = Function.update Paged.first.dirs 2000 D := rfl
    rw [hdirs, hone, Function.update_self]
  refine ⟨m, sys, Paged.run_first, ?_⟩
  obtain ⟨t, dirs⟩ := m
  dsimp only at hgrew hset ⊢
  rw [hset]
  cases hresized with
  | done new hnew hpos => omega
  | short hn _ _ => omega
  | wrapped hneg => omega
  | emptied _ hmaps =>
    cases hgrew with
    | grows _ hnot => exact absurd ⟨by decide, rfl⟩ hnot
    | fails top _ _ =>
      refine ⟨hstep, ⟨?_, ?_⟩, rfl, rfl, fun hpres => ?_⟩
      · change ProcState.running ≠ .unused
        decide
      · change ProcState.running ≠ .zombie
        decide
      · exact Nat.not_lt_zero _ ((hmaps.present 0 (by rw [Paging.userPages_eq]; decide)).mp hpres)

end Xv6
