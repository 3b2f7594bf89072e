-- SUMMARY: Pipes deliver what was stored, in order, and lose nothing.
import Xv6.Pipe.Calls

/-! # Pipes are queues

The ring of a pipe refines a queue: what was stored is what was delivered followed by
the contents of the ring. The holder of the lock is the only process that changes the
ring, so a reader that has found bytes, or no writer, can rely on it when it copies.
-/

namespace Xv6.Pipe

/-! ## The invariant -/

/-- The points between `acquire` and `release`. -/
def Call.holds : Call → Bool
  | .write _ _ _ .loop | .read _ _ _ .wait | .read _ _ _ .copy => true
  | _ => false

/-- How many bytes the call has moved, of how many. -/
def Call.progress : Call → Nat × Nat
  | .write _ n i _ | .read _ n i .copy => (i, n.toNat)
  | .read _ n _ _ => (0, n.toNat)
  | .idle => (0, 0)

/-- The ring is the queue of the bytes that are stored but not delivered. -/
structure State.Inv (s : State) (h : History) : Prop where
  holder : ∀ t, (s.call t).holds = true → s.lock = some t
  size_le : s.ring.size ≤ PIPESIZE
  fifo : h.stored = h.delivered ++ s.ring.contents
  copying : ∀ t addr n, s.call t = .read addr n 0 .copy → s.ring.nread = s.ring.nwrite → s.writeopen = false
  counted : ∀ t, s.call t ≠ .idle →
    (h.moved t).length = (s.call t).progress.1 ∧ (s.call t).progress.1 ≤ (s.call t).progress.2

section Wake

variable {call : Call}

theorem Call.holds_wake (h : call.wake.holds = true) : call.wake = call := by
  cases call with
  | idle => rfl
  | write addr n i point =>
    cases point with
    | asleep => cases h
    | acquire => rfl
    | loop => rfl
  | read addr n i point =>
    cases point with
    | asleep => cases h
    | acquire => rfl
    | wait => rfl
    | copy => rfl

theorem Call.progress_wake : call.wake.progress = call.progress ∧ (call = .idle → call.wake = .idle) := by
  cases call with
  | idle => exact ⟨rfl, fun _ => rfl⟩
  | write addr n i point => cases point <;> exact ⟨rfl, nofun⟩
  | read addr n i point => cases point <;> exact ⟨rfl, nofun⟩

/-- The call is as before, or woken up. -/
def Call.Woken (call call' : Call) : Prop := call' = call ∨ call' = call.wake

theorem State.wakeReaders_call (s : State) (q : Nat) : (s.call q).Woken (s.wakeReaders.call q) := by
  unfold Call.Woken wakeReaders
  dsimp only
  cases s.call q with
  | read addr n i point => cases point <;> simp [Call.wake]
  | _ => exact .inl rfl

theorem State.wakeWriters_call (s : State) (q : Nat) : (s.call q).Woken (s.wakeWriters.call q) := by
  unfold Call.Woken wakeWriters
  dsimp only
  cases s.call q with
  | write addr n i point => cases point <;> simp [Call.wake]
  | _ => exact .inl rfl

variable {call' : Call}

theorem Call.Woken.holds (h : call.Woken call') (hh : call'.holds = true) : call' = call := by
  rcases h with rfl | rfl
  · rfl
  · exact Call.holds_wake hh

theorem Call.Woken.progress (h : call.Woken call') (hne : call' ≠ .idle) :
    call ≠ .idle ∧ call'.progress = call.progress := by
  rcases h with rfl | rfl
  · exact ⟨hne, rfl⟩
  · exact ⟨fun hidle => hne (Call.progress_wake.2 hidle), Call.progress_wake.1⟩

end Wake

/-- From `s` to `u` process `t` moves; others may be woken up. -/
structure State.Moves (s u : State) (t : Nat) : Prop where
  other : ∀ q, q ≠ t → (s.call q).Woken (u.call q)
  lock : u.lock = s.lock ∨ s.lock = none ∨ s.lock = some t
  self : (u.call t).holds = true → u.lock = some t

section Moves

variable {s u : State} {t : Nat} {h h' : History}

/-- Who moves may change the ring if it holds the lock. -/
theorem State.Inv.moves (hs : s.Inv h) (hm : s.Moves u t) (hsize : u.ring.size ≤ PIPESIZE)
    (hfifo : h'.stored = h'.delivered ++ u.ring.contents)
    (hring : (u.ring = s.ring ∧ (u.writeopen = s.writeopen ∨ u.writeopen = false)) ∨ s.lock = some t)
    (hcopy : ∀ addr n, u.call t = .read addr n 0 .copy → u.ring.nread = u.ring.nwrite → u.writeopen = false)
    (hmoved : ∀ q ≠ t, h'.moved q = h.moved q) (hcount : u.call t ≠ .idle →
      (h'.moved t).length = (u.call t).progress.1 ∧ (u.call t).progress.1 ≤ (u.call t).progress.2) :
    u.Inv h' := by
  refine ⟨fun q hq => ?_, hsize, hfifo, fun q addr n hq hempty => ?_, fun q hq => ?_⟩
  · by_cases hqt : q = t
    · rw [hqt] at hq ⊢
      exact hm.self hq
    · have hlock : s.lock = some q := hs.holder q ((hm.other q hqt).holds hq ▸ hq)
      rcases hm.lock with hl | hl | hl
      · exact hl.trans hlock
      · exact absurd (hl.symm.trans hlock) (by simp)
      · exact absurd (Option.some.inj (hlock.symm.trans hl)) hqt
  · by_cases hqt : q = t
    · rw [hqt] at hq
      exact hcopy addr n hq hempty
    · have hholds : (u.call q).holds = true := by
        rw [hq]
        rfl
      have hsame := (hm.other q hqt).holds hholds
      rcases hring with ⟨hr, hopen⟩ | hl
      · rw [hr] at hempty
        have hclosed := hs.copying q addr n (hsame ▸ hq) hempty
        exact hopen.elim (fun ho => ho.trans hclosed) id
      · have hlock : s.lock = some q := hs.holder q (hsame ▸ hholds)
        exact absurd (Option.some.inj (hlock.symm.trans hl)) hqt
  · by_cases hqt : q = t
    · rw [hqt] at hq ⊢
      exact hcount hq
    · obtain ⟨hne, hsame⟩ := (hm.other q hqt).progress hq
      rw [hmoved q hqt, hsame]
      exact hs.counted q hne

/-- A move that does not touch the ring. -/
theorem State.Inv.quiet (hs : s.Inv h) (hm : s.Moves u t) (hring : u.ring = s.ring) (hopen : u.writeopen = s.writeopen)
    (hcopy : ∀ addr n, u.call t = .read addr n 0 .copy → s.ring.nread = s.ring.nwrite → s.writeopen = false)
    (hstored : h'.stored = h.stored) (hdelivered : h'.delivered = h.delivered) (hmoved : ∀ q ≠ t, h'.moved q = h.moved q)
    (hcount : u.call t ≠ .idle →
      (h'.moved t).length = (u.call t).progress.1 ∧ (u.call t).progress.1 ≤ (u.call t).progress.2) : u.Inv h' := by
  refine hs.moves hm (hring ▸ hs.size_le) ?_ (.inl ⟨hring, .inl hopen⟩) ?_ hmoved hcount
  · rw [hstored, hdelivered, hring]
    exact hs.fifo
  · rw [hring, hopen]
    exact hcopy

@[simp] theorem State.goto_same (s : State) (t : Nat) (call : Call) : (s.goto t call).call t = call :=
  Function.update_self _ _ _

theorem State.goto_ne (s : State) {q t : Nat} (call : Call) (h : q ≠ t) : (s.goto t call).call q = s.call q :=
  Function.update_of_ne h _ _

/-- `t` goes on, after it has woken up others or not. -/
theorem State.Moves.goto {v : State} {call : Call} (hother : ∀ q, (s.call q).Woken (v.call q))
    (hlock : v.lock = s.lock ∨ s.lock = none ∨ s.lock = some t) (hself : call.holds = true → v.lock = some t) :
    s.Moves (v.goto t call) t where
  other q hq := by
    rw [goto_ne _ _ hq]
    exact hother q
  lock := hlock
  self h := by
    rw [goto_same] at h
    exact hself h

/-- `t` goes on with its call, and the loop counter stays, or it returns. -/
theorem State.Inv.goesOn (hs : s.Inv h) {v : State} {call : Call} (hother : ∀ q, (s.call q).Woken (v.call q))
    (hlock : v.lock = s.lock ∨ s.lock = none ∨ s.lock = some t) (hself : call.holds = true → v.lock = some t)
    (hring : v.ring = s.ring) (hopen : v.writeopen = s.writeopen)
    (hcopy : ∀ addr n, call = .read addr n 0 .copy → s.ring.nread = s.ring.nwrite → s.writeopen = false)
    (htaken : taken t s (v.goto t call) = []) (hgiven : given t s (v.goto t call) = [])
    (hcount : call ≠ .idle → s.call t ≠ .idle ∧ call.progress = (s.call t).progress) :
    (v.goto t call).Inv (h.after s (v.goto t call) (.run t)) := by
  refine hs.quiet (.goto hother hlock hself) hring hopen (by simpa using hcopy) ?_ ?_ (fun q hq => ?_) fun hne => ?_
  · simp [History.after, htaken]
  · simp [History.after, hgiven]
  · exact Function.update_of_ne hq _ _
  · rw [goto_same] at hne ⊢
    obtain ⟨hne', hsame⟩ := hcount hne
    rw [hsame]
    simpa [History.after, htaken, hgiven] using hs.counted t hne'

/-- `t` returns. -/
theorem State.Inv.leaves (hs : s.Inv h) {v : State} (hother : ∀ q, (s.call q).Woken (v.call q))
    (hlock : s.lock = some t) (hring : v.ring = s.ring) (hopen : v.writeopen = s.writeopen) :
    (v.goto t .idle).Inv (h.after s (v.goto t .idle) (.run t)) :=
  hs.goesOn hother (.inr (.inr hlock)) nofun hring hopen nofun (by simp [taken]) (by simp [given])
    fun hne => absurd rfl hne

end Moves

/-! ## Every step keeps it -/

section Steps

variable {s u : State} {h : History} {t addr i : Nat} {n : Int} {r : Option Int}

/-- The ring has room unless the counters say that it is full. -/
theorem size_lt_of_not_full {ring : Ring UInt8 PIPESIZE 32} (hle : ring.size ≤ PIPESIZE)
    (hfull : ¬ ring.nwrite = ring.nread + BitVec.ofNat 32 PIPESIZE) : ring.size < PIPESIZE := by
  refine lt_of_le_of_ne hle fun h => hfull ?_
  exact (Ring.size_eq_capacity (by decide)).mp h

theorem pipewrite_inv (hs : s.Inv h) {point : WritePoint} (hcall : s.call t = .write addr n i point)
    (hstep : pipewrite t addr n i s point = some (u, r)) : u.Inv (h.after s u (.run t)) := by
  cases point with
  | asleep => cases hstep
  | acquire =>
    simp only [pipewrite] at hstep
    split at hstep
    · next hfree =>
      cases hstep
      exact hs.goesOn (fun _ => .inl rfl) (.inr (.inl hfree)) (fun _ => rfl) rfl rfl nofun (by simp [taken, hcall])
        (by simp [given, hcall]) fun _ => by simp [hcall, Call.progress]
    · cases hstep
  | loop =>
    have hlock : s.lock = some t := hs.holder t (by rw [hcall]; rfl)
    simp only [pipewrite] at hstep
    split at hstep
    · split at hstep
      · split at hstep
        · -- No reader is left.
          cases hstep
          exact hs.leaves (fun _ => .inl rfl) hlock rfl rfl
        · cases hstep
          exact hs.goesOn s.wakeReaders_call (.inr (.inr hlock)) nofun rfl rfl nofun (by simp [taken, hcall])
            (by simp [given, hcall]) fun _ => by simp [hcall, Call.progress]
      · next hfull =>
        have hroom := size_lt_of_not_full hs.size_le hfull
        have hcount := hs.counted t (by simp [hcall])
        cases hstep
        refine hs.moves (.goto (fun _ => .inl rfl) (.inl rfl) fun _ => hlock) ?_ ?_ (.inr hlock) ?_
          (fun q hq => Function.update_of_ne hq _ _) fun _ => ?_
        · change (s.ring.push _).size ≤ PIPESIZE
          have hsmall : s.ring.size + 1 < 2 ^ 32 := lt_of_le_of_lt hroom (by decide)
          rw [Ring.size_push hsmall]
          exact hroom
        · -- The byte that is pushed is the one in the buffer.
          change _ = _ ++ (s.ring.push (s.mem t (addr + i))).contents
          rw [Ring.contents_push (by decide) (by decide) hroom]
          simp [History.after, taken, given, hcall, hs.fifo]
        · simp
        · simp only [hcall, Call.progress] at hcount
          simp [History.after, taken, given, hcall, Call.progress, hcount.1]
          omega
    · cases hstep
      exact hs.leaves s.wakeReaders_call hlock rfl rfl

theorem piperead_inv (hs : s.Inv h) {point : ReadPoint} (hcall : s.call t = .read addr n i point)
    (hstep : piperead t addr n i s point = some (u, r)) : u.Inv (h.after s u (.run t)) := by
  cases point with
  | asleep => cases hstep
  | acquire =>
    simp only [piperead] at hstep
    split at hstep
    · next hfree =>
      cases hstep
      exact hs.goesOn (fun _ => .inl rfl) (.inr (.inl hfree)) (fun _ => rfl) rfl rfl nofun (by simp [taken, hcall])
        (by simp [given, hcall]) fun _ => by simp [hcall, Call.progress]
    · cases hstep
  | wait =>
    have hlock : s.lock = some t := hs.holder t (by rw [hcall]; rfl)
    simp only [piperead] at hstep
    split at hstep
    · split at hstep
      · cases hstep
        exact hs.leaves (fun _ => .inl rfl) hlock rfl rfl
      · cases hstep
        exact hs.goesOn (fun _ => .inl rfl) (.inr (.inr hlock)) nofun rfl rfl nofun (by simp [taken, hcall])
          (by simp [given, hcall]) fun _ => by simp [hcall, Call.progress]
    · next hready =>
      -- There are bytes, or there is no writer.
      cases hstep
      refine hs.goesOn (fun _ => .inl rfl) (.inl rfl) (fun _ => hlock) rfl rfl (fun _ _ _ hempty => ?_)
        (by simp [taken, hcall]) (by simp [given, hcall]) fun _ => by simp [hcall, Call.progress]
      by_contra hopen
      exact hready ⟨hempty, by simpa using hopen⟩
  | copy =>
    have hlock : s.lock = some t := hs.holder t (by rw [hcall]; rfl)
    simp only [piperead] at hstep
    split at hstep
    · next hmore =>
      have hcount := hs.counted t (by simp [hcall])
      cases hstep
      have hpop := Ring.size_pop hmore.2
      refine hs.moves (.goto (fun _ => .inl rfl) (.inl rfl) fun _ => hlock) ?_ ?_ (.inr hlock) ?_
        (fun q hq => Function.update_of_ne hq _ _) fun _ => ?_
      · change s.ring.pop.size ≤ PIPESIZE
        have hle := hs.size_le
        omega
      · -- The byte that is popped is the one in the buffer afterwards.
        change _ = _ ++ s.ring.pop.contents
        simp [History.after, taken, given, hcall, hs.fifo, Ring.contents_pop hmore.2, State.goto, State.deliver]
      · simp
      · simp only [hcall, Call.progress] at hcount
        simp [History.after, taken, given, hcall, Call.progress, hcount.1]
        omega
    · cases hstep
      exact hs.leaves s.wakeWriters_call hlock rfl rfl

theorem pipeclose_inv (hs : s.Inv h) {writable : Bool} (hstep : pipeclose writable s = some u) : u.Inv h := by
  unfold pipeclose at hstep
  split at hstep
  · next hfree =>
    -- The lock is free, so nobody is between `acquire` and `release`.
    have hend : ∀ v : State, (∀ q, (s.call q).Woken (v.call q)) → v.ring = s.ring → v.Inv h := by
      intro v hv hring
      have hnone : ∀ q, (v.call q).holds ≠ true := by
        intro q hq
        have hheld := hs.holder q ((hv q).holds hq ▸ hq)
        rw [hfree] at hheld
        cases hheld
      refine ⟨fun q hq => absurd hq (hnone q), hring ▸ hs.size_le, hring ▸ hs.fifo, fun q addr n hq => ?_, fun q hq => ?_⟩
      · exact absurd (by rw [hq]; rfl) (hnone q)
      · obtain ⟨hne, hsame⟩ := (hv q).progress hq
        rw [hsame]
        exact hs.counted q hne
    split at hstep
    · cases hstep
      exact hend _ s.wakeReaders_call rfl
    · cases hstep
      exact hend _ s.wakeWriters_call rfl
  · cases hstep

theorem step_inv (hs : s.Inv h) {a : Action} (hstep : step a s = some (u, r)) : u.Inv (h.after s u a) := by
  unfold step at hstep
  split at hstep
  · cases hstep
  cases a with
  | call t request =>
    dsimp only at hstep
    split at hstep
    · cases hstep
      have hstart : request.start.holds ≠ true ∧ request.start.progress.1 = 0 := by cases request <;> exact ⟨nofun, rfl⟩
      refine hs.quiet (t := t) (.goto (fun _ => .inl rfl) (.inl rfl) fun hh => absurd hh hstart.1) rfl rfl ?_ rfl rfl
        (fun q hq => Function.update_of_ne hq _ _) fun _ => ?_
      · intro addr n hcopy
        rw [State.goto_same] at hcopy
        exact absurd (by rw [hcopy]; rfl) hstart.1
      · rw [State.goto_same, hstart.2]
        simp [History.after]
    · cases hstep
  | run t =>
    simp only [run] at hstep
    cases hcall : s.call t with
    | idle =>
      rw [hcall] at hstep
      cases hstep
    | write addr n i point =>
      rw [hcall] at hstep
      exact pipewrite_inv hs hcall hstep
    | read addr n i point =>
      rw [hcall] at hstep
      exact piperead_inv hs hcall hstep
  | kill t =>
    cases hstep
    have hmoves : s.Moves (s.goto t (s.call t).wake) t :=
      .goto (fun _ => .inl rfl) (.inl rfl) fun hh => hs.holder t (Call.holds_wake hh ▸ hh)
    have hself : (s.goto t (s.call t).wake).call t = (s.call t).wake := s.goto_same t _
    refine hs.quiet (t := t) ⟨hmoves.other, hmoves.lock, hmoves.self⟩ rfl rfl (fun addr n hcopy => ?_) rfl rfl
      (fun _ _ => rfl) fun hne => ?_
    · have hcopy : (s.call t).wake = .read addr n 0 .copy := hself.symm.trans hcopy
      have hholds : (s.call t).wake.holds = true := by
        rw [hcopy]
        rfl
      exact hs.copying t addr n ((Call.holds_wake hholds).symm.trans hcopy)
    · obtain ⟨hne', hsame⟩ := Call.Woken.progress (.inr hself) hne
      exact hsame ▸ hs.counted t hne'
  | close writable =>
    dsimp only at hstep
    cases hclose : pipeclose writable s with
    | none =>
      rw [hclose] at hstep
      cases hstep
    | some v =>
      rw [hclose] at hstep
      cases hstep
      exact pipeclose_inv hs hclose
  | user mem =>
    cases hstep
    exact ⟨hs.holder, hs.size_le, hs.fifo, hs.copying, hs.counted⟩

end Steps

theorem pipealloc_inv {data : Fin PIPESIZE → UInt8} {killed : Nat → Bool} {mem : Nat → Nat → UInt8} :
    (State.pipealloc data killed mem).Inv .empty := by
  have hzero : (State.pipealloc data killed mem).ring.size = 0 := Ring.size_eq_zero.mpr rfl
  exact ⟨nofun, hzero ▸ Nat.zero_le _, (Ring.contents_eq_nil rfl).symm, nofun, fun _ hne => absurd rfl hne⟩

theorem Run.inv {s₀ s : State} {h : History} (hrun : Run s₀ s h) (h₀ : s₀.Inv .empty) : s.Inv h := by
  induction hrun with
  | refl => exact h₀
  | step _ a hstep ih => exact step_inv ih hstep

/-! ## Returning -/

section Returns

variable {s u : State} {h : History} {t addr i : Nat} {n v : Int}

/-- In memory a call changes only the byte that it gives to its caller. -/
theorem step_mem {r : Option Int} (hstep : step (.run t) s = some (u, r)) {q a : Nat} (hne : u.mem q a ≠ s.mem q a) :
    q = t ∧ ∃ addr n i, s.call t = .read addr n i .copy ∧ u.call t = .read addr n (i + 1) .copy ∧ a = addr + i := by
  unfold step at hstep
  split at hstep
  · cases hstep
  simp only [run] at hstep
  cases hcall : s.call t with
  | idle =>
    rw [hcall] at hstep
    cases hstep
  | write addr n i point =>
    simp only [hcall] at hstep
    cases point <;> simp only [pipewrite] at hstep <;> (repeat' split at hstep) <;> cases hstep <;> exact absurd rfl hne
  | read addr n i point =>
    simp only [hcall] at hstep
    cases point with
    | copy =>
      simp only [piperead] at hstep
      split at hstep
      · cases hstep
        by_cases hq : q = t
        · by_cases ha : a = addr + i
          · exact ⟨hq, addr, n, i, rfl, State.goto_same _ _ _, ha⟩
          · subst hq
            simp [State.goto, State.deliver, ha] at hne
        · simp [State.goto, State.deliver, hq] at hne
      · cases hstep
        exact absurd rfl hne
    | _ =>
      simp only [piperead] at hstep
      (repeat' split at hstep) <;> cases hstep <;> exact absurd rfl hne

/-- `pipewrite` returns -1, or it has moved all of its bytes. -/
theorem State.Inv.wrote (hs : s.Inv h) {point : WritePoint} (hcall : s.call t = .write addr n i point)
    (hstep : step (.run t) s = some (u, some v)) : v = -1 ∨ (v = n ∧ (h.moved t).length = n.toNat) := by
  have hcount := hs.counted t (by simp [hcall])
  simp only [hcall, Call.progress] at hcount
  unfold step at hstep
  split at hstep
  · cases hstep
  simp only [run, hcall] at hstep
  cases point with
  | asleep => cases hstep
  | acquire =>
    simp only [pipewrite] at hstep
    split at hstep <;> cases hstep
  | loop =>
    simp only [pipewrite] at hstep
    split at hstep
    · split at hstep
      · split at hstep
        · cases hstep
          exact .inl rfl
        · cases hstep
      · cases hstep
    · next hall =>
      cases hstep
      exact .inr ⟨rfl, by omega⟩

/-- `piperead` returns -1 or the number of bytes that it has moved. It returns 0 to a caller
    that asks for some only if the pipe is empty and the write end is closed. -/
theorem State.Inv.didRead (hs : s.Inv h) {point : ReadPoint} (hcall : s.call t = .read addr n i point)
    (hstep : step (.run t) s = some (u, some v)) : (v = -1 ∨ v = (h.moved t).length) ∧
      (0 < n → v = 0 → s.ring.nread = s.ring.nwrite ∧ s.writeopen = false) := by
  have hcount := hs.counted t (by simp [hcall])
  unfold step at hstep
  split at hstep
  · cases hstep
  simp only [run, hcall] at hstep
  cases point with
  | acquire =>
    simp only [piperead] at hstep
    split at hstep <;> cases hstep
  | wait =>
    simp only [piperead] at hstep
    split at hstep
    · split at hstep
      · cases hstep
        exact ⟨.inl rfl, fun _ h => by cases h⟩
      · cases hstep
    · cases hstep
  | asleep => cases hstep
  | copy =>
    simp only [piperead] at hstep
    split at hstep
    · cases hstep
    · next hstop =>
      simp only [hcall, Call.progress] at hcount
      cases hstep
      refine ⟨.inr (by rw [hcount.1]), fun hn hi => ?_⟩
      obtain rfl : i = 0 := by exact_mod_cast hi
      have hempty : s.ring.nread = s.ring.nwrite := by
        by_contra hne
        exact hstop ⟨hn, hne⟩
      exact ⟨hempty, hs.copying t addr n hcall hempty⟩

end Returns

/-- In every state that can be reached, at most `PIPESIZE` bytes are in the pipe, by
    counters that wrap around. What was taken from the buffers of writers is what was put
    into the buffers of readers followed by these bytes. A call that does not fail returns
    the number of bytes that it has moved, and `piperead` returns 0 only at the end. Calls
    change nothing else in the memory of processes. -/
theorem pipe_fifo {data : Fin PIPESIZE → UInt8} {killed : Nat → Bool} {mem : Nat → Nat → UInt8} {s : State} {h : History}
    (hrun : Run (.pipealloc data killed mem) s h) :
    (s.ring.nwrite - s.ring.nread).toNat ≤ PIPESIZE ∧
    (∃ buffered, h.stored = h.delivered ++ buffered ∧ buffered = s.ring.contents ∧
      buffered.length = (s.ring.nwrite - s.ring.nread).toNat) ∧
    (∀ t addr n i point u v, s.call t = .write addr n i point → step (.run t) s = some (u, some v) →
      v = -1 ∨ (v = n ∧ (h.moved t).length = n.toNat)) ∧
    (∀ t addr n i point u v, s.call t = .read addr n i point → step (.run t) s = some (u, some v) →
      (v = -1 ∨ v = (h.moved t).length) ∧ (0 < n → v = 0 → s.ring.nread = s.ring.nwrite ∧ s.writeopen = false)) ∧
    ∀ t u r q a, step (.run t) s = some (u, r) → u.mem q a ≠ s.mem q a → q = t ∧ ∃ addr n i,
      s.call t = .read addr n i .copy ∧ u.call t = .read addr n (i + 1) .copy ∧ a = addr + i := by
  have hinv := hrun.inv pipealloc_inv
  exact ⟨hinv.size_le, ⟨s.ring.contents, hinv.fifo, rfl, Ring.length_contents⟩,
    fun _ _ _ _ _ _ _ hcall hstep => hinv.wrote hcall hstep,
    fun _ _ _ _ _ _ _ hcall hstep => hinv.didRead hcall hstep, fun _ _ _ _ _ hstep hne => step_mem hstep hne⟩

/-- Steps one after the other. -/
def play : List Action → State × History → Option (State × History)
  | [], x => some x
  | a :: rest, x =>
    match step a x.1 with
    | some r => play rest (r.1, x.2.after x.1 r.1 a)
    | none => none

theorem Run.of_play {s₀ : State} {y : State × History} : ∀ {actions : List Action} {x : State × History},
    Run s₀ x.1 x.2 → play actions x = some y → Run s₀ y.1 y.2
  | [], x, h, hp => Option.some.inj hp ▸ h
  | a :: rest, x, h, hp => by
    unfold play at hp
    split at hp
    · next r hr => exact Run.of_play (.step h a hr) hp
    · cases hp

/-- Process 1 has slept until process 0 had written three bytes, and has copied two of them
    to address 10. -/
def copiedTwo : List Action :=
  [.call 0 (.write 0 3), .call 1 (.read 10 2), .run 1, .run 1, .run 0, .run 0, .run 0, .run 0, .run 0, .run 1, .run 1,
    .run 1, .run 1]

/-- It returns 2, and one byte is left. -/
theorem pipe_fifo_copiedTwo : ∃ s h u, Run (.pipealloc (fun _ => 0) (fun _ => false) fun _ => UInt8.ofNat) s h ∧
    s.mem 1 10 = 0 ∧ s.mem 1 11 = 1 ∧ h.stored = [0, 1, 2] ∧ h.delivered = [0, 1] ∧ s.ring.contents = [2] ∧
    step (.run 1) s = some (u, some 2) ∧ (h.moved 1).length = 2 := by
  have hplay : (play copiedTwo (.pipealloc (fun _ => 0) (fun _ => false) fun _ => UInt8.ofNat, .empty)).any
      (fun x => x.1.mem 1 10 = 0 ∧ x.1.mem 1 11 = 1 ∧ x.2.stored = [0, 1, 2] ∧ x.2.delivered = [0, 1] ∧
        x.1.call 1 = .read 10 2 2 .copy ∧ (step (.run 1) x.1).map Prod.snd = some (some 2)) = true := by
    decide +kernel
  cases hp : play copiedTwo (.pipealloc (fun _ => 0) (fun _ => false) fun _ => UInt8.ofNat, .empty) with
  | none =>
    rw [hp] at hplay
    cases hplay
  | some x =>
    rw [hp] at hplay
    obtain ⟨h₁, h₂, hstored, hdelivered, hcall, hstep⟩ := of_decide_eq_true hplay
    obtain ⟨⟨u, r⟩, hstep, rfl⟩ := Option.map_eq_some_iff.mp hstep
    have hrun : Run _ x.1 x.2 := .of_play .refl hp
    obtain ⟨-, ⟨buffered, hfifo, hring, -⟩, -, hread, -⟩ := pipe_fifo hrun
    have hleft : x.1.ring.contents = [2] := by
      rw [hstored, hdelivered, hring] at hfifo
      have hcancel : [0, 1] ++ [2] = [0, 1] ++ x.1.ring.contents := hfifo
      exact (List.append_cancel_left hcancel).symm
    have hcount := (hread 1 10 2 2 .copy u 2 hcall hstep).1.resolve_left (by decide)
    exact ⟨x.1, x.2, u, hrun, h₁, h₂, hstored, hdelivered, hleft, hstep, by omega⟩

end Xv6.Pipe
