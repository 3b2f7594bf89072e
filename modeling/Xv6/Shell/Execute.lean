-- SUMMARY: ExecuteCommand of shell.c: which processes run which commands.
import Mathlib.Algebra.BigOperators.Fin
import Mathlib.Algebra.Order.BigOperators.Group.Finset
import Mathlib.Data.List.Count
import Mathlib.Tactic.Ring

/-! # Running a command line

`ExecuteCommand` forks a child for each command, and the child calls `execvp`. When
`execvp` fails the child is still a copy of the shell in the middle of the loop: it goes
on with the commands after its own, waits for its children and returns to the read loop.

Processes are numbered in the order in which they are forked, 0 is the shell. `fork`
succeeds, and a program that was started ends by itself.
-/

namespace Xv6.Shell

/-- Where a process stands. -/
inductive Point where
  /-- At the test of the loop over the commands. -/
  | loop (position : Nat)
  /-- Forked for a command, before `execvp`. -/
  | child (position : Nat)
  /-- Replaced by the program of a command. -/
  | program (position : Nat)
  /-- In the loop that calls `wait`. -/
  | waiting
  /-- Returned from `ExecuteCommand`. -/
  | readLoop
  | ended
  deriving DecidableEq, Repr

structure Proc where
  point : Point
  parent : Option Nat
  /-- `wait` has returned this process. -/
  reaped : Bool
  deriving DecidableEq, Repr

/-- All processes, the commands for which `execvp` was called so far, and the processes
    that have returned from `ExecuteCommand` so far. -/
structure State where
  proc : Nat → Proc
  count : Nat
  attempts : List Nat
  returns : List Nat

namespace State

variable (s : State)

def set (p : Nat) (x : Proc) : State := { s with proc := Function.update s.proc p x }

def goto (p : Nat) (point : Point) : State := s.set p { s.proc p with point := point }

/-- The state in which the shell calls `ExecuteCommand`. -/
def start : State where
  proc := fun _ => { point := .loop 0, parent := none, reaped := false }
  count := 1
  attempts := []
  returns := []

/-- `pid = fork()`, for the command at `position`. -/
def fork (p position : Nat) : State :=
  { (s.goto p (.loop (position + 1))).set s.count { point := .child position, parent := some p, reaped := false } with
    count := s.count + 1 }

/-- `execvp`. If it returns, the child goes on with the loop. -/
def execvp (fails : Nat → Bool) (p position : Nat) : State :=
  { s.goto p (if fails position then .loop (position + 1) else .program position) with
    attempts := s.attempts ++ [position] }

/-- All children of `p` have been waited for. -/
def Childless (p : Nat) : Prop := ∀ q, q < s.count → (s.proc q).parent = some p → (s.proc q).reaped = true

instance (p : Nat) : Decidable (s.Childless p) :=
  inferInstanceAs (Decidable (∀ q, q < s.count → (s.proc q).parent = some p → (s.proc q).reaped = true))

def leave (p : Nat) : State := { s.goto p .readLoop with returns := s.returns ++ [p] }

end State

inductive Action where
  /-- Process `p` goes on. -/
  | run (p : Nat)
  /-- `wait` of `p` returns `q`. -/
  | reap (p q : Nat)
  deriving DecidableEq, Repr

section Step

variable (commands : List String) (fails : Nat → Bool)

/-- The next statement of process `p`. `wait` returns -1 when there is no child. -/
def runNext (s : State) (p : Nat) : Option State :=
  match (s.proc p).point with
  | .loop position =>
    match commands[position]? with
    | some _ => some (s.fork p position)
    | none => some (s.goto p .waiting)
  | .child position => some (s.execvp fails p position)
  | .program _ => some (s.goto p .ended)
  | .waiting => if s.Childless p then some (s.leave p) else none
  | .readLoop => some (s.goto p .ended)
  | .ended => none

def step (s : State) : Action → Option State
  | .run p => if p < s.count then runNext commands fails s p else none
  | .reap p q =>
    if p < s.count ∧ q < s.count ∧ (s.proc p).point = .waiting ∧ (s.proc q).parent = some p ∧
        (s.proc q).point = .ended ∧ (s.proc q).reaped = false then
      some (s.set q { s.proc q with reaped := true })
    else none

/-- `t` is reached from `s` in `n` steps of any processes. -/
inductive Run (s : State) : Nat → State → Prop where
  | refl : Run s 0 s
  | step {n : Nat} {t u : State} (h : Run s n t) (a : Action) (hstep : step commands fails t a = some u) : Run s (n + 1) u

end Step

/-! ## Every command once -/

/-- Whatever the order of steps: no command is attempted twice; nobody but the shell
    returns, and not before its children have ended; in the end every command was
    attempted and the shell has returned; and there is an end. -/
structure RunsOnce (commands : List String) (fails : Nat → Bool) : Prop where
  once : ∀ n s, Run commands fails .start n s → ∀ i, s.attempts.count i ≤ 1
  shell : ∀ n s, Run commands fails .start n s → ∀ p ∈ s.returns, p = 0
  children : ∀ n s, Run commands fails .start n s → 0 ∈ s.returns →
    ∀ q, q < s.count → (s.proc q).parent = some 0 → (s.proc q).point = .ended
  complete : ∀ n s, Run commands fails .start n s → (∀ a, step commands fails s a = none) →
    s.returns = [0] ∧ ∀ i, i < commands.length → s.attempts.count i = 1
  finite : ∃ N, ∀ n s, Run commands fails .start n s → n ≤ N

section Updates

variable {s : State} {p q : Nat}

theorem State.set_same {x : Proc} : (s.set p x).proc p = x := Function.update_self _ _ _

theorem State.set_ne {x : Proc} (h : q ≠ p) : (s.set p x).proc q = s.proc q := Function.update_of_ne h _ _

theorem State.goto_same {point : Point} : (s.goto p point).proc p = { s.proc p with point := point } := set_same

theorem State.goto_ne {point : Point} (h : q ≠ p) : (s.goto p point).proc q = s.proc q := set_ne h

theorem State.fork_new {position : Nat} :
    (s.fork p position).proc s.count = { point := .child position, parent := some p, reaped := false } := set_same

theorem State.fork_old {position : Nat} (hq : q ≠ s.count) :
    (s.fork p position).proc q = (s.goto p (.loop (position + 1))).proc q := set_ne hq

theorem State.execvp_parent {fails : Nat → Bool} {position : Nat} :
    ((s.execvp fails p position).proc q).parent = (s.proc q).parent := by
  unfold execvp
  dsimp only
  by_cases hq : q = p
  · rw [hq, goto_same]
  · rw [goto_ne hq]

end Updates

/-- While no command has failed: the shell and its children, of which child `q` has
    command `q - 1`. -/
structure State.Inv (commands : List String) (s : State) : Prop where
  parent : (s.proc 0).parent = none
  phase : (∃ pos, pos ≤ commands.length ∧ (s.proc 0).point = .loop pos ∧ s.count = pos + 1 ∧ s.returns = []) ∨
    ((s.proc 0).point = .waiting ∧ s.count = commands.length + 1 ∧ s.returns = []) ∨
    (((s.proc 0).point = .readLoop ∨ (s.proc 0).point = .ended) ∧ s.count = commands.length + 1 ∧ s.returns = [0] ∧
      s.Childless 0)
  child : ∀ q, q + 1 < s.count → (s.proc (q + 1)).parent = some 0 ∧ ((s.proc (q + 1)).point = .child q ∨
    (s.proc (q + 1)).point = .program q ∨ (s.proc (q + 1)).point = .ended) ∧
    ((s.proc (q + 1)).reaped = true → (s.proc (q + 1)).point = .ended)
  attempts : ∀ i, s.attempts.count i = if i + 1 < s.count ∧ (s.proc (i + 1)).point ≠ .child i then 1 else 0

/-- What is left to do for a process when there are `k` commands. -/
def Proc.weight (k : Nat) (x : Proc) : Nat :=
  match x.point with
  | .loop position => 4 * (k - position) + 3
  | .child _ => 3
  | .program _ => 2
  | .waiting => 2
  | .readLoop => 1
  | .ended => if x.reaped = true ∨ x.parent = none then 0 else 1

def State.rank (k : Nat) (s : State) : Nat := ∑ q ∈ Finset.range s.count, (s.proc q).weight k

theorem State.rank_set {s : State} {p k : Nat} {x : Proc} (hp : p < s.count) :
    (s.set p x).rank k + (s.proc p).weight k = s.rank k + x.weight k := by
  have hmem : p ∈ Finset.range s.count := Finset.mem_range.mpr hp
  have hrest : ∑ q ∈ (Finset.range s.count).erase p, ((s.set p x).proc q).weight k =
      ∑ q ∈ (Finset.range s.count).erase p, (s.proc q).weight k :=
    Finset.sum_congr rfl fun q hq => by rw [set_ne (Finset.ne_of_mem_erase hq)]
  have hnew : (s.set p x).rank k = x.weight k + ∑ q ∈ (Finset.range s.count).erase p, (s.proc q).weight k := by
    have hsum := Finset.add_sum_erase _ (fun q => ((s.set p x).proc q).weight k) hmem
    rw [set_same, hrest] at hsum
    exact hsum.symm
  have hold : s.rank k = (s.proc p).weight k + ∑ q ∈ (Finset.range s.count).erase p, (s.proc q).weight k :=
    (Finset.add_sum_erase _ _ hmem).symm
  omega

section Succeeding

variable {commands : List String} {fails : Nat → Bool} {s t : State} {p : Nat}

theorem State.Inv.count_le (h : s.Inv commands) : s.count ≤ commands.length + 1 := by
  rcases h.phase with ⟨pos, hpos, -, hcount, -⟩ | ⟨-, hcount, -⟩ | ⟨-, hcount, -⟩ <;> omega

/-- The shell forks the next child. -/
theorem State.Inv.fork (h : s.Inv commands) {pos : Nat} (hpos : pos < commands.length)
    (hpoint : (s.proc 0).point = .loop pos) : (s.fork 0 pos).Inv commands ∧
      (s.fork 0 pos).rank commands.length + 1 = s.rank commands.length := by
  have hphase : s.count = pos + 1 ∧ s.returns = [] := by
    rcases h.phase with ⟨pos', -, hp, hcount, hret⟩ | ⟨hp, -⟩ | ⟨hp | hp, -⟩ <;> rw [hpoint] at hp
    · cases hp
      exact ⟨hcount, hret⟩
    all_goals cases hp
  obtain ⟨hcount, hret⟩ := hphase
  have hzero : (s.fork 0 pos).proc 0 = { s.proc 0 with point := .loop (pos + 1) } := by
    rw [fork_old (by omega), goto_same]
  have hold : ∀ q, q + 1 < s.count → (s.fork 0 pos).proc (q + 1) = s.proc (q + 1) := by
    intro q hq
    rw [fork_old (by omega), goto_ne (by omega)]
  have hnew : (s.fork 0 pos).proc (pos + 1) = { point := .child pos, parent := some 0, reaped := false } := by
    rw [← hcount]
    exact fork_new
  refine ⟨⟨?_, .inl ⟨pos + 1, hpos, ?_, ?_, hret⟩, fun q hq => ?_, fun i => ?_⟩, ?_⟩
  · rw [hzero]
    exact h.parent
  · rw [hzero]
  · exact congrArg (· + 1) hcount
  · have hq : q + 1 < s.count + 1 := hq
    rcases Nat.lt_succ_iff_lt_or_eq.mp hq with hq | hq
    · rw [hold q hq]
      exact h.child q hq
    · obtain rfl : q = pos := by omega
      rw [hnew]
      exact ⟨rfl, .inl rfl, nofun⟩
  · refine (h.attempts i).trans ?_
    have hcount' : (s.fork 0 pos).count = s.count + 1 := rfl
    rw [hcount']
    by_cases hi : i + 1 < s.count
    · rw [hold i hi]
      simp [hi, Nat.lt_succ_of_lt hi]
    · by_cases hi' : i = pos
      · rw [hi', hnew]
        simp [hcount]
      · have : ¬ i + 1 < s.count + 1 := by omega
        simp [hi, this]
  · have hgoto := @rank_set s 0 commands.length { s.proc 0 with point := .loop (pos + 1) } (by omega)
    have hsum : (s.fork 0 pos).rank commands.length = (s.goto 0 (.loop (pos + 1))).rank commands.length + 3 := by
      unfold rank
      have hcount' : (s.fork 0 pos).count = s.count + 1 := rfl
      rw [hcount', Finset.sum_range_succ, fork_new]
      congr 1
      exact Finset.sum_congr rfl fun q hq => congrArg _ (fork_old (Finset.mem_range.mp hq).ne)
    have hw : (s.proc 0).weight commands.length = 4 * (commands.length - pos) + 3 := by
      unfold Proc.weight
      rw [hpoint]
    have hw' : ({ s.proc 0 with point := .loop (pos + 1) } : Proc).weight commands.length =
        4 * (commands.length - (pos + 1)) + 3 := rfl
    unfold goto at hsum
    omega

/-- The shell goes on without forking. -/
theorem State.Inv.shellMoves (h : s.Inv commands) {point : Point} (hproc : t.proc = (s.goto 0 point).proc)
    (hcount : t.count = s.count) (hattempts : t.attempts = s.attempts)
    (hphase : (point = .waiting ∧ s.count = commands.length + 1 ∧ t.returns = []) ∨
      ((point = .readLoop ∨ point = .ended) ∧ s.count = commands.length + 1 ∧ t.returns = [0] ∧ s.Childless 0)) :
    t.Inv commands := by
  have hzero : t.proc 0 = { s.proc 0 with point := point } := by rw [hproc, goto_same]
  have hsame : ∀ q, t.proc (q + 1) = s.proc (q + 1) := fun q => by rw [hproc, goto_ne (by omega)]
  refine ⟨?_, .inr ?_, fun q hq => ?_, fun i => ?_⟩
  · rw [hzero]
    exact h.parent
  · rw [hcount, hzero]
    refine hphase.imp_right fun ⟨hp, hc, hr, hless⟩ => ⟨hp, hc, hr, fun q hq hparent => ?_⟩
    rw [hcount] at hq
    cases q with
    | zero =>
      rw [hzero] at hparent
      exact absurd (h.parent.symm.trans hparent) (by simp)
    | succ q =>
      rw [hsame] at hparent ⊢
      exact hless (q + 1) hq hparent
  · rw [hsame]
    exact h.child q (hcount ▸ hq)
  · rw [hattempts, hcount, hsame]
    exact h.attempts i

/-- A child goes on, or is reaped. -/
theorem State.Inv.childMoves (h : s.Inv commands) {q : Nat} {x : Proc} (hq : q + 1 < s.count)
    (hproc : t.proc = (s.set (q + 1) x).proc) (hcount : t.count = s.count) (hreturns : t.returns = s.returns)
    (hparent : x.parent = some 0) (hpoint : x.point = .program q ∨ x.point = .ended)
    (hreaped : x.reaped = true → x.point = .ended) (hkept : (s.proc (q + 1)).reaped = true → x.reaped = true)
    (hattempts : t.attempts = if (s.proc (q + 1)).point = .child q then s.attempts ++ [q] else s.attempts) :
    t.Inv commands := by
  have hself : t.proc (q + 1) = x := by rw [hproc, set_same]
  have hsame : ∀ r, r ≠ q + 1 → t.proc r = s.proc r := fun r hr => by rw [hproc, set_ne hr]
  have hzero : t.proc 0 = s.proc 0 := hsame 0 (by omega)
  refine ⟨?_, ?_, fun r hr => ?_, fun i => ?_⟩
  · rw [hzero]
    exact h.parent
  · rw [hzero, hcount, hreturns]
    refine h.phase.imp_right (Or.imp_right fun ⟨hp, hc, hr, hless⟩ => ⟨hp, hc, hr, fun r hr hparent => ?_⟩)
    rw [hcount] at hr
    by_cases hrq : r = q + 1
    · rw [hrq, hself]
      exact hkept (hless (q + 1) hq (h.child q hq).1)
    · rw [hsame r hrq] at hparent ⊢
      exact hless r hr hparent
  · by_cases hrq : r = q
    · rw [hrq, hself]
      exact ⟨hparent, .inr hpoint, hreaped⟩
    · rw [hsame (r + 1) (by omega)]
      exact h.child r (hcount ▸ hr)
  · have hnot : x.point ≠ .child q := by
      rcases hpoint with hp | hp <;> rw [hp] <;> nofun
    by_cases hi : i = q
    · have hone : (if q + 1 < s.count ∧ x.point ≠ .child q then 1 else 0) = 1 := if_pos ⟨hq, hnot⟩
      have hold := h.attempts q
      rw [hi, hself, hcount, hone, hattempts]
      split
      · next hc =>
        rw [if_neg fun hn => hn.2 hc] at hold
        rw [List.count_append, hold, List.count_singleton_self]
      · next hc =>
        rw [if_pos ⟨hq, hc⟩] at hold
        exact hold
    · rw [hsame (i + 1) (by omega), hcount, ← h.attempts i, hattempts]
      split
      · rw [List.count_append, List.count_singleton, beq_false_of_ne (Ne.symm hi)]
        rfl
      · rfl

theorem State.Inv.notReaped (h : s.Inv commands) {q : Nat} (hq : q + 1 < s.count)
    (hpoint : (s.proc (q + 1)).point ≠ .ended) : (s.proc (q + 1)).reaped = false := by
  by_contra hr
  exact hpoint ((h.child q hq).2.2 (by simpa using hr))

theorem Proc.weight_ended {k q : Nat} {x : Proc} (hparent : x.parent = some q) (hreaped : x.reaped = false)
    (hpoint : x.point = .ended) : x.weight k = 1 := by
  unfold weight
  rw [hpoint]
  simp [hparent, hreaped]

/-- The next statement of a child. -/
theorem State.Inv.runChild (h : s.Inv commands) (hok : ∀ i, i < commands.length → fails i = false) {q : Nat}
    (hq : q + 1 < s.count) (hstep : runNext commands fails s (q + 1) = some t) :
    t.Inv commands ∧ t.rank commands.length + 1 = s.rank commands.length := by
  obtain ⟨hparent, hpoint, -⟩ := h.child q hq
  have hle := h.count_le
  rcases hpoint with hp | hp | hp
  · have hreaped := h.notReaped hq (by rw [hp]; nofun)
    simp only [runNext, hp, State.execvp, hok q (by omega)] at hstep
    obtain rfl := Option.some.inj hstep
    refine ⟨h.childMoves hq rfl rfl rfl hparent (.inl rfl) ?_ id ?_, ?_⟩
    · intro hr
      exact absurd (hreaped.symm.trans hr) (by decide)
    · rw [if_pos hp]
    · have hrank := @rank_set s (q + 1) commands.length { s.proc (q + 1) with point := .program q } hq
      have hw : (s.proc (q + 1)).weight commands.length = 3 := by
        unfold Proc.weight
        rw [hp]
      have hw' : ({ s.proc (q + 1) with point := .program q } : Proc).weight commands.length = 2 := rfl
      change (s.set (q + 1) { s.proc (q + 1) with point := .program q }).rank commands.length + 1 = _
      omega
  · have hreaped := h.notReaped hq (by rw [hp]; nofun)
    simp only [runNext, hp] at hstep
    obtain rfl := Option.some.inj hstep
    refine ⟨h.childMoves hq rfl rfl rfl hparent (.inr rfl) (fun _ => rfl) id ?_, ?_⟩
    · rw [if_neg (by rw [hp]; nofun)]
      rfl
    · have hrank := @rank_set s (q + 1) commands.length { s.proc (q + 1) with point := .ended } hq
      have hw : (s.proc (q + 1)).weight commands.length = 2 := by
        unfold Proc.weight
        rw [hp]
      have hw' : ({ s.proc (q + 1) with point := .ended } : Proc).weight commands.length = 1 :=
        Proc.weight_ended hparent hreaped rfl
      unfold goto
      omega
  · simp only [runNext, hp] at hstep
    cases hstep

/-- The next statement of the shell. -/
theorem State.Inv.runShell (h : s.Inv commands) (hstep : runNext commands fails s 0 = some t) :
    t.Inv commands ∧ t.rank commands.length + 1 = s.rank commands.length := by
  have hmove : ∀ (u : State) (point : Point), u.proc = (s.goto 0 point).proc → u.count = s.count → 0 < s.count →
      ({ s.proc 0 with point := point } : Proc).weight commands.length + 1 = (s.proc 0).weight commands.length →
      u.rank commands.length + 1 = s.rank commands.length := by
    intro u point hproc hcount hpos hw
    have hrank := @rank_set s 0 commands.length { s.proc 0 with point := point } hpos
    have hu : u.rank commands.length = (s.goto 0 point).rank commands.length := by
      unfold rank
      rw [hproc, hcount]
      rfl
    unfold goto at hu
    omega
  rcases h.phase with ⟨pos, hpos, hp, hcount, hret⟩ | ⟨hp, hcount, hret⟩ | ⟨hp | hp, hcount, hret, hless⟩
  · simp only [runNext, hp] at hstep
    by_cases hlt : pos < commands.length
    · rw [List.getElem?_eq_getElem hlt] at hstep
      obtain rfl := Option.some.inj hstep
      exact h.fork hlt hp
    · obtain rfl : pos = commands.length := by omega
      rw [List.getElem?_eq_none le_rfl] at hstep
      obtain rfl := Option.some.inj hstep
      refine ⟨h.shellMoves rfl rfl rfl (.inl ⟨rfl, hcount, hret⟩), hmove _ _ rfl rfl (by omega) ?_⟩
      unfold Proc.weight
      rw [hp]
      dsimp only
      omega
  · simp only [runNext, hp] at hstep
    split at hstep
    · next hless =>
      obtain rfl := Option.some.inj hstep
      refine ⟨h.shellMoves rfl rfl rfl (.inr ⟨.inl rfl, hcount, ?_, hless⟩), hmove _ _ rfl rfl (by omega) ?_⟩
      · exact congrArg (· ++ [0]) hret
      · unfold Proc.weight
        rw [hp]
    · cases hstep
  · simp only [runNext, hp] at hstep
    obtain rfl := Option.some.inj hstep
    refine ⟨h.shellMoves rfl rfl rfl (.inr ⟨.inr rfl, hcount, hret, hless⟩), hmove _ _ rfl rfl (by omega) ?_⟩
    have hnone := h.parent
    unfold Proc.weight
    rw [hp]
    simp [hnone]
  · simp only [runNext, hp] at hstep
    cases hstep

theorem State.Inv.step (h : s.Inv commands) (hok : ∀ i, i < commands.length → fails i = false) {a : Action}
    (hstep : Shell.step commands fails s a = some t) :
    t.Inv commands ∧ t.rank commands.length + 1 = s.rank commands.length := by
  cases a with
  | run p =>
    simp only [Shell.step] at hstep
    split at hstep
    · next hp =>
      cases p with
      | zero => exact h.runShell hstep
      | succ q => exact h.runChild hok hp hstep
    · cases hstep
  | reap p q =>
    simp only [Shell.step] at hstep
    split at hstep
    · next hr =>
      obtain ⟨-, hq, -, hparent, hpoint, hreaped⟩ := hr
      obtain rfl := Option.some.inj hstep
      cases q with
      | zero => exact absurd (h.parent.symm.trans hparent) (by simp)
      | succ q =>
        have hzero := (h.child q hq).1
        refine ⟨h.childMoves hq rfl rfl rfl hzero (.inr hpoint) (fun _ => hpoint) (fun _ => rfl) ?_, ?_⟩
        · rw [if_neg (by rw [hpoint]; nofun)]
          rfl
        · have hrank := @rank_set s (q + 1) commands.length { s.proc (q + 1) with reaped := true } hq
          have hw' : ({ s.proc (q + 1) with reaped := true } : Proc).weight commands.length = 0 := by
            unfold Proc.weight
            rw [hpoint]
            simp
          rw [hw', Proc.weight_ended hzero hreaped hpoint] at hrank
          exact hrank
    · cases hstep

theorem start_inv : State.start.Inv commands := by
  refine ⟨rfl, .inl ⟨0, Nat.zero_le _, rfl, rfl, rfl⟩, fun q hq => ?_, fun i => ?_⟩
  · exact absurd hq (by simp [State.start])
  · simp [State.start]

/-- Along a run the invariant holds, and each step takes one from the rank. -/
theorem Run.inv {n : Nat} (hrun : Run commands fails .start n s) (hok : ∀ i, i < commands.length → fails i = false) :
    s.Inv commands ∧ n + s.rank commands.length = State.start.rank commands.length := by
  induction hrun with
  | refl => exact ⟨start_inv, Nat.zero_add _⟩
  | step _ a hstep ih =>
    obtain ⟨hinv, hrank⟩ := ih.1.step hok hstep
    have hsum := ih.2
    exact ⟨hinv, by omega⟩

/-- As long as the shell is not back, somebody can go on. -/
theorem State.Inv.stuck (h : s.Inv commands) (hstuck : ∀ a, Shell.step commands fails s a = none) :
    (s.proc 0).point = .ended := by
  have hpos : 0 < s.count := by
    rcases h.phase with ⟨pos, -, -, hcount, -⟩ | ⟨-, hcount, -⟩ | ⟨-, hcount, -⟩ <;> omega
  have hshell : runNext commands fails s 0 = none := by
    have hrun := hstuck (.run 0)
    simp only [Shell.step] at hrun
    rwa [if_pos hpos] at hrun
  rcases h.phase with ⟨pos, -, hp, -⟩ | ⟨hp, hcount, -⟩ | ⟨hp | hp, -⟩
  · simp only [runNext, hp] at hshell
    split at hshell <;> cases hshell
  · simp only [runNext, hp] at hshell
    split at hshell
    · cases hshell
    · next hless =>
      -- Some child was not waited for; it can go on, or be reaped.
      exfalso
      refine hless fun q hq hparent => ?_
      cases q with
      | zero => exact absurd (h.parent.symm.trans hparent) (by simp)
      | succ q =>
        by_contra hr
        have hchild : runNext commands fails s (q + 1) = none := by
          have hrun := hstuck (.run (q + 1))
          simp only [Shell.step] at hrun
          rwa [if_pos hq] at hrun
        have hreap := hstuck (.reap 0 (q + 1))
        simp only [Shell.step] at hreap
        rcases (h.child q hq).2.1 with hc | hc | hc
        · simp only [runNext, hc] at hchild
          cases hchild
        · simp only [runNext, hc] at hchild
          cases hchild
        · rw [if_pos ⟨hpos, hq, hp, hparent, hc, by simpa using hr⟩] at hreap
          cases hreap
  · simp only [runNext, hp] at hshell
    cases hshell
  · exact hp

theorem runsOnce_of_succeed (hok : ∀ i, i < commands.length → fails i = false) : RunsOnce commands fails where
  once n s hrun i := by
    rw [(hrun.inv hok).1.attempts i]
    split <;> decide
  shell n s hrun p hp := by
    rcases (hrun.inv hok).1.phase with ⟨_, -, -, -, hret⟩ | ⟨-, -, hret⟩ | ⟨-, -, hret, -⟩ <;> rw [hret] at hp
    · cases hp
    · cases hp
    · exact List.mem_singleton.mp hp
  children n s hrun hmem q hq hparent := by
    have hinv := (hrun.inv hok).1
    rcases hinv.phase with ⟨_, -, -, -, hret⟩ | ⟨-, -, hret⟩ | ⟨-, -, -, hless⟩
    · rw [hret] at hmem
      cases hmem
    · rw [hret] at hmem
      cases hmem
    · have hreaped := hless q hq hparent
      cases q with
      | zero => exact absurd (hinv.parent.symm.trans hparent) (by simp)
      | succ q => exact (hinv.child q hq).2.2 hreaped
  complete n s hrun hstuck := by
    have hinv := (hrun.inv hok).1
    have hend := hinv.stuck hstuck
    rcases hinv.phase with ⟨_, -, hp, -⟩ | ⟨hp, -⟩ | ⟨-, hcount, hret, hless⟩
    · rw [hend] at hp
      cases hp
    · rw [hend] at hp
      cases hp
    · refine ⟨hret, fun i hi => ?_⟩
      have hlt : i + 1 < s.count := by omega
      have hdone := (hinv.child i hlt).2.2 (hless (i + 1) hlt (hinv.child i hlt).1)
      rw [hinv.attempts i, if_pos ⟨hlt, by rw [hdone]; nofun⟩]
  finite := by
    refine ⟨State.start.rank commands.length, fun n s hrun => ?_⟩
    have hsum := (hrun.inv hok).2
    omega

end Succeeding

/-! ## A command that fails -/

section Failing

variable {commands : List String} {fails : Nat → Bool} {s t u : State} {p : Nat}

theorem Run.trans {n m : Nat} (h : Run commands fails s n t) (h' : Run commands fails t m u) :
    Run commands fails s (n + m) u := by
  induction h' with
  | refl => exact h
  | step _ a hstep ih => exact .step ih a hstep

/-- Some order of steps leads to `p` returning from `ExecuteCommand`. -/
def State.MayReturn (commands : List String) (fails : Nat → Bool) (s : State) (p : Nat) : Prop :=
  ∃ n t, Run commands fails s n t ∧ p ∈ t.returns

theorem State.MayReturn.of_step {a : Action} (hstep : step commands fails s a = some t)
    (h : t.MayReturn commands fails p) : s.MayReturn commands fails p := by
  obtain ⟨n, u, hrun, hmem⟩ := h
  exact ⟨_, u, (Run.step .refl a hstep).trans hrun, hmem⟩

theorem step_run (hp : p < s.count) : step commands fails s (.run p) = runNext commands fails s p := if_pos hp

/-- The children of `p` that were not waited for. -/
def State.unreaped (s : State) (p : Nat) : Finset Nat :=
  (Finset.range s.count).filter fun q => (s.proc q).parent = some p ∧ (s.proc q).reaped = false

/-- Who waits for children that have ended returns. -/
theorem State.mayReturn_of_waiting (hp : p < s.count) (hpoint : (s.proc p).point = .waiting)
    (hended : ∀ q, q < s.count → (s.proc q).parent = some p → (s.proc q).point = .ended) :
    s.MayReturn commands fails p := by
  induction hm : (s.unreaped p).card using Nat.strong_induction_on generalizing s with
  | _ m ih =>
    by_cases hless : s.Childless p
    · have hleave : step commands fails s (.run p) = some (s.leave p) := by
        rw [step_run hp]
        simp only [runNext, hpoint]
        exact if_pos hless
      exact ⟨_, _, .step .refl _ hleave, List.mem_append_right _ (List.mem_singleton_self p)⟩
    · unfold Childless at hless
      push Not at hless
      obtain ⟨q, hq, hparent, hreaped⟩ := hless
      have hreaped : (s.proc q).reaped = false := by simpa using hreaped
      have hqp : p ≠ q := by
        rintro rfl
        exact absurd (hpoint.symm.trans (hended p hq hparent)) nofun
      have hstep : step commands fails s (.reap p q) = some (s.set q { s.proc q with reaped := true }) :=
        if_pos ⟨hp, hq, hpoint, hparent, hended q hq hparent, hreaped⟩
      have hsub : (s.set q { s.proc q with reaped := true }).unreaped p ⊆ (s.unreaped p).erase q := by
        intro r hr
        obtain ⟨hr, hrp, hrr⟩ := Finset.mem_filter.mp hr
        by_cases hrq : r = q
        · rw [hrq, set_same] at hrr
          cases hrr
        · rw [set_ne hrq] at hrp hrr
          exact Finset.mem_erase.mpr ⟨hrq, Finset.mem_filter.mpr ⟨hr, hrp, hrr⟩⟩
      have hmem : q ∈ s.unreaped p := Finset.mem_filter.mpr ⟨Finset.mem_range.mpr hq, hparent, hreaped⟩
      have hcard : ((s.set q { s.proc q with reaped := true }).unreaped p).card < m := by
        have hle := Finset.card_le_card hsub
        rw [Finset.card_erase_of_mem hmem, hm] at hle
        have hpos := Finset.card_pos.mpr ⟨q, hmem⟩
        omega
      refine .of_step hstep (ih _ hcard hp ?_ (fun r hr hrp => ?_) rfl)
      · rw [set_ne hqp]
        exact hpoint
      · by_cases hrq : r = q
        · rw [hrq, set_same]
          exact hended q hq hparent
        · rw [set_ne hrq] at hrp ⊢
          exact hended r hr hrp

/-- Who is in the loop returns, if the commands that are left succeed. -/
theorem State.mayReturn_of_loop {pos : Nat} (hp : p < s.count) (hpos : pos ≤ commands.length)
    (hpoint : (s.proc p).point = .loop pos) (hok : ∀ i, pos ≤ i → i < commands.length → fails i = false)
    (hended : ∀ q, q < s.count → (s.proc q).parent = some p → (s.proc q).point = .ended) :
    s.MayReturn commands fails p := by
  have hself : (s.proc p).parent ≠ some p := fun h => absurd (hpoint.symm.trans (hended p hp h)) nofun
  induction hk : commands.length - pos generalizing s pos with
  | zero =>
    obtain rfl : pos = commands.length := by omega
    have hstep : step commands fails s (.run p) = some (s.goto p .waiting) := by
      rw [step_run hp]
      simp only [runNext, hpoint, List.getElem?_eq_none le_rfl]
    refine .of_step hstep (mayReturn_of_waiting hp (by rw [goto_same]) fun q hq hparent => ?_)
    by_cases hqp : q = p
    · rw [hqp, goto_same] at hparent
      exact absurd hparent hself
    · rw [goto_ne hqp] at hparent ⊢
      exact hended q hq hparent
  | succ k ih =>
    have hlt : pos < commands.length := by omega
    have hfork : step commands fails s (.run p) = some (s.fork p pos) := by
      rw [step_run hp]
      simp only [runNext, hpoint, List.getElem?_eq_getElem hlt]
    -- The new child runs its program to the end.
    have hnew : s.count < (s.fork p pos).count := Nat.lt_succ_self _
    have hexec : step commands fails (s.fork p pos) (.run s.count) = some ((s.fork p pos).execvp fails s.count pos) := by
      rw [step_run hnew]
      simp only [runNext, fork_new]
    have hpoint' : (((s.fork p pos).execvp fails s.count pos).proc s.count).point = .program pos := by
      unfold State.execvp
      rw [hok pos le_rfl hlt]
      exact congrArg Proc.point goto_same
    have hend : step commands fails ((s.fork p pos).execvp fails s.count pos) (.run s.count) =
        some (((s.fork p pos).execvp fails s.count pos).goto s.count .ended) := by
      have hnew' : s.count < ((s.fork p pos).execvp fails s.count pos).count := hnew
      rw [step_run hnew']
      simp only [runNext, hpoint']
    set v := ((s.fork p pos).execvp fails s.count pos).goto s.count .ended with hv
    have hold : ∀ q, q ≠ s.count → v.proc q = (s.goto p (.loop (pos + 1))).proc q := by
      intro q hq
      rw [hv, goto_ne hq]
      exact (goto_ne hq).trans (fork_old hq)
    have hvp : v.proc p = { s.proc p with point := .loop (pos + 1) } := by
      rw [hold p hp.ne, goto_same]
    refine .of_step hfork (.of_step hexec (.of_step hend (@ih v (pos + 1) (Nat.lt_succ_of_lt hp) hlt ?_ ?_ ?_ ?_ ?_)))
    · rw [hvp]
    · exact fun i hi => hok i (by omega)
    · intro q hq hparent
      by_cases hqc : q = s.count
      · rw [hqc, hv, goto_same]
      · have hq : q < s.count + 1 := hq
        by_cases hqp : q = p
        · rw [hqp, hvp] at hparent
          exact absurd hparent hself
        · rw [hold q hqc, goto_ne hqp] at hparent ⊢
          exact hended q (by omega) hparent
    · rw [hvp]
      exact hself
    · omega

/-- The shell can fork a number of children before any of them goes on. -/
theorem exists_forked {m : Nat} (hm : m ≤ commands.length) : ∃ n s, Run commands fails .start n s ∧
    (s.proc 0).point = .loop m ∧ (s.proc 0).parent = none ∧ s.count = m + 1 ∧ ∀ q, q < m →
      s.proc (q + 1) = { point := .child q, parent := some 0, reaped := false } := by
  induction m with
  | zero => exact ⟨0, .start, .refl, rfl, rfl, rfl, nofun⟩
  | succ m ih =>
    obtain ⟨n, s, hrun, hpoint, hparent, hcount, hchild⟩ := ih (by omega)
    have hstep : step commands fails s (.run 0) = some (s.fork 0 m) := by
      rw [step_run (by omega)]
      simp only [runNext, hpoint, List.getElem?_eq_getElem (show m < commands.length by omega)]
    have hzero : (s.fork 0 m).proc 0 = { s.proc 0 with point := .loop (m + 1) } := by
      rw [State.fork_old (by omega), State.goto_same]
    refine ⟨_, _, .step hrun _ hstep, by rw [hzero], by rw [hzero]; exact hparent, congrArg (· + 1) hcount, fun q hq => ?_⟩
    by_cases hqm : q = m
    · rw [hqm, ← hcount]
      exact State.fork_new
    · rw [State.fork_old (by omega), State.goto_ne (by omega)]
      exact hchild q (by omega)

theorem exists_last_failing (h : ∃ i, i < commands.length ∧ fails i = true) :
    ∃ j, j < commands.length ∧ fails j = true ∧ ∀ i, j < i → i < commands.length → fails i = false := by
  have hne : ((Finset.range commands.length).filter fun i => fails i = true).Nonempty := by
    obtain ⟨i, hi, hf⟩ := h
    exact ⟨i, Finset.mem_filter.mpr ⟨Finset.mem_range.mpr hi, hf⟩⟩
  obtain ⟨hj, hf⟩ := Finset.mem_filter.mp (Finset.max'_mem _ hne)
  refine ⟨_, Finset.mem_range.mp hj, hf, fun i hji hi => ?_⟩
  by_contra hfi
  have hmem : i ∈ (Finset.range commands.length).filter fun i => fails i = true :=
    Finset.mem_filter.mpr ⟨Finset.mem_range.mpr hi, by simpa using hfi⟩
  exact absurd (Finset.le_max' _ i hmem) (not_le.mpr hji)

/-- The child of the last command that fails returns to the read loop. -/
theorem child_returns (h : ∃ i, i < commands.length ∧ fails i = true) :
    ∃ n s p, Run commands fails .start n s ∧ p ≠ 0 ∧ p ∈ s.returns := by
  obtain ⟨j, hj, hf, hlast⟩ := exists_last_failing h
  obtain ⟨n, s, hrun, -, hparent, hcount, hchild⟩ := @exists_forked commands fails (j + 1) hj
  have hp : j + 1 < s.count := by omega
  have hpoint := hchild j (Nat.lt_succ_self j)
  have hstep : step commands fails s (.run (j + 1)) = some (s.execvp fails (j + 1) j) := by
    rw [step_run hp]
    simp only [runNext, hpoint]
  have hback : ((s.execvp fails (j + 1) j).proc (j + 1)).point = .loop (j + 1) := by
    unfold State.execvp
    rw [hf]
    exact congrArg Proc.point State.goto_same
  have hreturn : (s.execvp fails (j + 1) j).MayReturn commands fails (j + 1) := by
    refine State.mayReturn_of_loop hp hj hback (fun i hi => hlast i hi) fun q hq hq' => ?_
    -- It has no children yet: all have the shell as their parent.
    rw [State.execvp_parent] at hq'
    have hq : q < s.count := hq
    cases q with
    | zero =>
      rw [hparent] at hq'
      cases hq'
    | succ q =>
      rw [hchild q (by omega)] at hq'
      cases hq'
  obtain ⟨m, t, hrun', hmem⟩ := hreturn.of_step hstep
  exact ⟨_, t, j + 1, hrun.trans hrun', Nat.succ_ne_zero j, hmem⟩

end Failing

/-- Each command of a line runs once, and only the shell returns, exactly if `execvp`
    fails for none of them. -/
theorem runs_once_iff (commands : List String) (fails : Nat → Bool) :
    RunsOnce commands fails ↔ ∀ i, i < commands.length → fails i = false := by
  refine ⟨fun h i hi => ?_, runsOnce_of_succeed⟩
  by_contra hf
  obtain ⟨n, s, p, hrun, hne, hmem⟩ := child_returns ⟨i, hi, by simpa using hf⟩
  exact hne (h.shell n s hrun p hmem)

/-- Steps one after the other. -/
theorem exists_run_of_foldlM {commands : List String} {fails : Nat → Bool} {s₀ t : State} :
    ∀ {actions : List Action} {n : Nat} {s : State}, Run commands fails s₀ n s →
      actions.foldlM (step commands fails) s = some t → ∃ m, Run commands fails s₀ m t
  | [], n, s, h, ht => ⟨n, Option.some.inj ht ▸ h⟩
  | a :: rest, n, s, h, ht => by
    rw [List.foldlM_cons] at ht
    cases hs : step commands fails s a with
    | none =>
      rw [hs] at ht
      cases ht
    | some u =>
      rw [hs] at ht
      exact exists_run_of_foldlM (.step h a hs) ht

/-- One order of steps for two commands. -/
def twoShells : List Action :=
  [.run 0, .run 1, .run 1, .run 2, .run 2, .run 1, .reap 1 2, .run 1, .run 1, .run 0, .run 3, .run 3, .run 0, .reap 0 1,
    .reap 0 3, .run 0]

/-- Of two commands the first fails. Its child attempts the second, as the shell does,
    and both return. -/
theorem second_command_twice : ∃ n s, Run ["nosuch", "ls"] (· == 0) .start n s ∧ s.attempts.count 1 = 2 ∧
    s.returns = [1, 0] := by
  have hplay : (twoShells.foldlM (step ["nosuch", "ls"] (· == 0)) .start).any
      (fun s => s.attempts.count 1 = 2 ∧ s.returns = [1, 0]) = true := by
    decide +kernel
  cases hp : twoShells.foldlM (step ["nosuch", "ls"] (· == 0)) .start with
  | none =>
    rw [hp] at hplay
    cases hplay
  | some s =>
    rw [hp] at hplay
    obtain ⟨n, hrun⟩ := exists_run_of_foldlM .refl hp
    exact ⟨n, s, hrun, of_decide_eq_true hplay⟩

end Xv6.Shell
