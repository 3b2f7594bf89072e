-- SUMMARY: The redo log of log.c: operations of any number of processes, commits, crashes and recovery, step by step.
import Xv6.Base.Bytes
import Xv6.FileSystem.Format
import Mathlib.Data.Finset.Card

/-! # The log

Processes run `begin_op`, `log_write` and `end_op` one step at a time, in any order. What
happens under `log.lock` is one step. `log_write` tests the room in the log before it takes
the lock, so that it is two steps; the process has the buffer locked all the while. A commit
and the recovery after a crash write one disk block in each step.

A buffer shows the disk until somebody changes it. It may be recycled when nobody uses it
and it is not dirty; how buffers are found is not modelled here, but a commit panics when all
of them are dirty.

`committed`, `current` and `returned` are no part of the kernel. They say what was written
by the operations of each group that has reached its commit point, what was written since,
and how many commits have returned.
-/

namespace Xv6.Journal

/-- The contents of the disk, block by block. -/
abbrev Disk := Nat → Bytes

/-- A block and what is stored there. -/
abbrev Update := Nat × Bytes

/-! ## The header block -/

/-- `hb->block[i] = log.lh.block[i]` from `i` on. -/
def putBlocks (hb : Bytes) (i : Nat) : List Nat → Bytes
  | [] => hb
  | b :: bs => putBlocks (hb.setWord (i + 1) (UInt32.ofNat b)) (i + 1) bs

/-- What `write_head` stores. -/
def putHead (hb : Bytes) (lh : List Nat) : Bytes := putBlocks (hb.setWord 0 (UInt32.ofNat lh.length)) 0 lh

/-- What `read_head` finds. -/
def getHead (hb : Bytes) : List Nat := (List.range (hb.word 0).toNat).map fun i => (hb.word (i + 1)).toNat

/-! ## State -/

/-- An operation under way: the blocks it passed to `log_write`, and the one for which it
    waits for `log.lock`. -/
structure Op where
  blocks : List Nat
  logging : Option Nat

/-- Where a commit stands. -/
inductive Commit where
  /-- `write_log`, then `write_head`. -/
  | writeLog (tail : Nat)
  /-- `install_trans`, then `write_head` with an empty header. -/
  | install (tail : Nat)

structure State where
  disk : Disk
  /-- The data of the buffers that are in use or cached. -/
  buf : Nat → Option Bytes
  dirty : Nat → Bool
  /-- The process that has the buffer locked. -/
  holder : Nat → Option Nat
  lh : List Nat
  outstanding : Nat
  commit : Option Commit
  op : Nat → Option Op
  committed : List (List Update)
  current : List Update
  returned : Nat

/-- A kernel that starts, in `recover_from_log`: before `read_head`, or in `install_trans`. -/
structure Boot where
  disk : Disk
  lh : Option (List Nat × Nat)
  committed : List (List Update)
  returned : Nat

inductive Machine where
  | running (s : State)
  | booting (s : Boot)

namespace State

/-- What `bread` returns. -/
def bread (s : State) (b : Nat) : Bytes := (s.buf b).getD (s.disk b)

/-- `bwrite` of the buffer of block `b` with data `c`. -/
def bwrite (s : State) (b : Nat) (c : Bytes) : State :=
  { s with
    disk := Function.update s.disk b c
    buf := Function.update s.buf b (some c)
    dirty := Function.update s.dirty b false }

/-- The test at the start of `log_write`. -/
def tooBig (s : State) : Prop := s.lh.length ≥ LOGSIZE ∨ s.lh.length ≥ LOGSIZE - 1

instance (s : State) : Decidable s.tooBig := by unfold tooBig; infer_instance

/-- `begin_op` that does not wait. -/
def beginOp (s : State) (p : Nat) : Option State :=
  if (s.op p).isNone ∧ s.commit.isNone ∧ s.lh.length + (s.outstanding + 1) * MAXOPBLOCKS ≤ LOGSIZE then
    some { s with outstanding := s.outstanding + 1, op := Function.update s.op p (some ⟨[], none⟩) }
  else none

/-- The process changes the buffer of block `b` and calls `log_write`, up to its lock. -/
def logWrite (s : State) (p b : Nat) (c : Bytes) : Option State :=
  match s.op p with
  | some ⟨bs, none⟩ =>
    if (s.holder b).isSome ∨ s.tooBig then none
    else some { s with
      buf := Function.update s.buf b (some c)
      holder := Function.update s.holder b (some p)
      op := Function.update s.op p (some ⟨if b ∈ bs then bs else b :: bs, some b⟩)
      current := s.current ++ [(b, c)] }
  | _ => none

/-- The rest of `log_write`, and `brelse`. -/
def absorb (s : State) (p : Nat) : Option State :=
  match s.op p with
  | some ⟨bs, some b⟩ => some { s with
      lh := if b ∈ s.lh then s.lh else s.lh ++ [b]
      dirty := Function.update s.dirty b true
      holder := Function.update s.holder b none
      op := Function.update s.op p (some ⟨bs, none⟩) }
  | _ => none

/-- `end_op` up to its commit. -/
def endOp (s : State) (p : Nat) : Option State :=
  match s.op p with
  | some ⟨_, none⟩ => some { s with
      outstanding := s.outstanding - 1
      commit := if s.outstanding - 1 = 0 then some (.writeLog 0) else s.commit
      op := Function.update s.op p none }
  | _ => none

/-- The next step of `commit`. -/
def commitStep (start : Nat) (s : State) : Option State :=
  match s.commit with
  | none => none
  | some (.writeLog tail) =>
    if h : tail < s.lh.length then
      -- the logged blocks keep their buffers, and `bread` of the log block needs another one
      if s.lh.length < NBUF then
        some { s.bwrite (start + tail + 1) (s.bread s.lh[tail]) with commit := some (.writeLog (tail + 1)) }
      else none
    -- an empty group writes nothing
    else if s.lh = [] then
      some { s with
        commit := none, committed := s.committed ++ [s.current], current := [], returned := s.returned + 1 }
    -- the real commit
    else some { s.bwrite start (putHead (s.bread start) s.lh) with
      commit := some (.install 0), committed := s.committed ++ [s.current], current := [] }
  | some (.install tail) =>
    if h : tail < s.lh.length then
      some { s.bwrite s.lh[tail] (s.bread (start + tail + 1)) with commit := some (.install (tail + 1)) }
    -- erase the transaction from the log
    else some { s.bwrite start (putHead (s.bread start) []) with
      lh := [], commit := none, returned := s.returned + 1 }

/-- `bread` by anybody. -/
def read (s : State) (b : Nat) : State := { s with buf := Function.update s.buf b (some (s.bread b)) }

/-- `bget` recycles the buffer of block `b`. -/
def evict (s : State) (b : Nat) : Option State :=
  if s.dirty b = false ∧ (s.holder b).isNone then some { s with buf := Function.update s.buf b none } else none

end State

/-- The kernel before the first operation. -/
def State.init (disk : Disk) (committed : List (List Update)) (returned : Nat) : State where
  disk := disk
  buf := fun _ => none
  dirty := fun _ => false
  holder := fun _ => none
  lh := []
  outstanding := 0
  commit := none
  op := fun _ => none
  committed := committed
  current := []
  returned := returned

/-- The next step of `recover_from_log`. -/
def Boot.step (start : Nat) (s : Boot) : Machine :=
  match s.lh with
  | none => .booting { s with lh := some (getHead (s.disk start), 0) }
  | some (lh, tail) =>
    if h : tail < lh.length then
      .booting { s with
        disk := Function.update s.disk lh[tail] (s.disk (start + tail + 1)), lh := some (lh, tail + 1) }
    else .running (.init (Function.update s.disk start (putHead (s.disk start) [])) s.committed s.returned)

/-! ## Steps -/

inductive Label where
  | beginOp (p : Nat)
  | logWrite (p b : Nat) (c : Bytes)
  | absorb (p : Nat)
  | endOp (p : Nat)
  | commit
  | read (b : Nat)
  | evict (b : Nat)
  | crash
  | boot

namespace Machine

def disk : Machine → Disk
  | .running s => s.disk
  | .booting s => s.disk

def committed : Machine → List (List Update)
  | .running s => s.committed
  | .booting s => s.committed

def returned : Machine → Nat
  | .running s => s.returned
  | .booting s => s.returned

/-- A crash leaves the disk. -/
def crash (m : Machine) : Machine := .booting ⟨m.disk, none, m.committed, m.returned⟩

end Machine

/-- What a running kernel does next. -/
def State.next (start : Nat) (s : State) : Label → Option State
  | .beginOp p => s.beginOp p
  | .logWrite p b c => s.logWrite p b c
  | .absorb p => s.absorb p
  | .endOp p => s.endOp p
  | .commit => s.commitStep start
  | .read b => some (s.read b)
  | .evict b => s.evict b
  | .crash => none
  | .boot => none

def Machine.next (start : Nat) (m : Machine) : Label → Option Machine
  | .crash => some m.crash
  | l =>
    match m, l with
    | .running s, l => (s.next start l).map .running
    | .booting s, .boot => some (s.step start)
    | .booting _, _ => none

/-! ## What a step does -/

/-- The steps of a running kernel, one by one. -/
inductive State.Step (start : Nat) (s : State) : Label → State → Prop where
  | beginOp {p : Nat} (hop : s.op p = none) (hcommit : s.commit = none)
      (hroom : s.lh.length + (s.outstanding + 1) * MAXOPBLOCKS ≤ LOGSIZE) :
      Step start s (.beginOp p)
        { s with outstanding := s.outstanding + 1, op := Function.update s.op p (some ⟨[], none⟩) }
  | logWrite {p b : Nat} {c : Bytes} {bs : List Nat} (hop : s.op p = some ⟨bs, none⟩) (hfree : s.holder b = none)
      (hroom : ¬ s.tooBig) :
      Step start s (.logWrite p b c)
        { s with
          buf := Function.update s.buf b (some c)
          holder := Function.update s.holder b (some p)
          op := Function.update s.op p (some ⟨if b ∈ bs then bs else b :: bs, some b⟩)
          current := s.current ++ [(b, c)] }
  | absorb {p b : Nat} {bs : List Nat} (hop : s.op p = some ⟨bs, some b⟩) :
      Step start s (.absorb p)
        { s with
          lh := if b ∈ s.lh then s.lh else s.lh ++ [b]
          dirty := Function.update s.dirty b true
          holder := Function.update s.holder b none
          op := Function.update s.op p (some ⟨bs, none⟩) }
  | endOp {p : Nat} {bs : List Nat} (hop : s.op p = some ⟨bs, none⟩) :
      Step start s (.endOp p)
        { s with
          outstanding := s.outstanding - 1
          commit := if s.outstanding - 1 = 0 then some (.writeLog 0) else s.commit
          op := Function.update s.op p none }
  | copy {tail : Nat} (hpc : s.commit = some (.writeLog tail)) (hlt : tail < s.lh.length)
      (hbuf : s.lh.length < NBUF) :
      Step start s .commit
        { s.bwrite (start + tail + 1) (s.bread s.lh[tail]) with commit := some (.writeLog (tail + 1)) }
  | nothing {tail : Nat} (hpc : s.commit = some (.writeLog tail)) (hlh : s.lh = []) :
      Step start s .commit
        { s with
          commit := none, committed := s.committed ++ [s.current], current := [], returned := s.returned + 1 }
  | head {tail : Nat} (hpc : s.commit = some (.writeLog tail)) (hge : s.lh.length ≤ tail) :
      Step start s .commit
        { s.bwrite start (putHead (s.bread start) s.lh) with
          commit := some (.install 0), committed := s.committed ++ [s.current], current := [] }
  | install {tail : Nat} (hpc : s.commit = some (.install tail)) (hlt : tail < s.lh.length) :
      Step start s .commit
        { s.bwrite s.lh[tail] (s.bread (start + tail + 1)) with commit := some (.install (tail + 1)) }
  | erase {tail : Nat} (hpc : s.commit = some (.install tail)) (hge : s.lh.length ≤ tail) :
      Step start s .commit
        { s.bwrite start (putHead (s.bread start) []) with
          lh := [], commit := none, returned := s.returned + 1 }
  | read {b : Nat} : Step start s (.read b) (s.read b)
  | evict {b : Nat} (hclean : s.dirty b = false) (hfree : s.holder b = none) :
      Step start s (.evict b) { s with buf := Function.update s.buf b none }

section Cases

variable {start p b : Nat} {c : Bytes} {s t : State} {l : Label}

theorem State.beginOp_step (h : s.beginOp p = some t) : s.Step start (.beginOp p) t := by
  unfold beginOp at h
  split at h
  · next hc =>
    cases h
    exact .beginOp (Option.isNone_iff_eq_none.mp hc.1) (Option.isNone_iff_eq_none.mp hc.2.1) hc.2.2
  · cases h

theorem State.logWrite_step (h : s.logWrite p b c = some t) : s.Step start (.logWrite p b c) t := by
  unfold logWrite at h
  split at h
  · next bs hop =>
    split at h
    · cases h
    · next hc =>
      cases h
      rw [not_or] at hc
      exact .logWrite hop (Option.not_isSome_iff_eq_none.mp hc.1) hc.2
  · cases h

theorem State.absorb_step (h : s.absorb p = some t) : s.Step start (.absorb p) t := by
  unfold absorb at h
  split at h
  · next hop =>
    cases h
    exact .absorb hop
  · cases h

theorem State.endOp_step (h : s.endOp p = some t) : s.Step start (.endOp p) t := by
  unfold endOp at h
  split at h
  · next hop =>
    cases h
    exact .endOp hop
  · cases h

theorem State.commitStep_step (h : s.commitStep start = some t) : s.Step start .commit t := by
  unfold commitStep at h
  split at h
  · cases h
  · next hpc =>
    split at h
    · next hlt =>
      obtain ⟨hbuf, h⟩ := Option.ite_none_right_eq_some.mp h
      cases h
      exact .copy hpc hlt hbuf
    · next hge =>
      split at h
      · next hlh =>
        cases h
        exact .nothing hpc hlh
      · cases h
        exact .head hpc (Nat.not_lt.mp hge)
  · next hpc =>
    split at h
    · next hlt =>
      cases h
      exact .install hpc hlt
    · next hge =>
      cases h
      exact .erase hpc (Nat.not_lt.mp hge)

theorem State.evict_step (h : s.evict b = some t) : s.Step start (.evict b) t := by
  unfold evict at h
  split at h
  · next hc =>
    cases h
    exact .evict hc.1 (Option.isNone_iff_eq_none.mp hc.2)
  · cases h

theorem State.step_of_next (h : s.next start l = some t) : s.Step start l t := by
  cases l with
  | beginOp p => exact beginOp_step h
  | logWrite p b c => exact logWrite_step h
  | absorb p => exact absorb_step h
  | endOp p => exact endOp_step h
  | commit => exact commitStep_step h
  | read b => exact Option.some.inj h ▸ .read
  | evict b => exact evict_step h
  | crash => cases h
  | boot => cases h

end Cases

/-! ## Runs -/

/-- The states that are reached from `s` by steps that meet `Ok`. -/
inductive Run {σ : Type} (next : σ → Label → Option σ) (Ok : σ → Label → Prop) (s : σ) : σ → Prop where
  | refl : Run next Ok s s
  | step {t u : σ} (h : Run next Ok s t) (l : Label) (hok : Ok t l) (hstep : next t l = some u) : Run next Ok s u

theorem Run.trans {σ : Type} {next : σ → Label → Option σ} {Ok : σ → Label → Prop} {s t u : σ} (h : Run next Ok s t)
    (hu : Run next Ok t u) : Run next Ok s u := by
  induction hu with
  | refl => exact h
  | step _ l hok hstep ih => exact .step ih l hok hstep

section Play

variable {σ : Type} (next : σ → Label → Option σ) (Ok : σ → Label → Prop) [∀ s l, Decidable (Ok s l)]

/-- The state after these steps, if each meets `Ok`. -/
def play (s : σ) (labels : List Label) : Option σ :=
  labels.foldlM (fun s l => if Ok s l then next s l else none) s

variable {next Ok}

theorem Run.of_play {s t u : σ} {labels : List Label} (h : Run next Ok s t) (hplay : play next Ok t labels = some u) :
    Run next Ok s u := by
  induction labels generalizing t with
  | nil => exact Option.some.inj hplay ▸ h
  | cons l rest ih =>
    rw [play, List.foldlM_cons, Option.bind_eq_bind, Option.bind_eq_some_iff] at hplay
    obtain ⟨v, hv, hrest⟩ := hplay
    obtain ⟨hok, hnext⟩ := Option.ite_none_right_eq_some.mp hv
    exact ih (.step h l hok hnext) hrest

end Play

/-- The processes between `begin_op` and `end_op` after a step. -/
def Label.active (active : Finset Nat) : Label → Finset Nat
  | .beginOp p => insert p active
  | .endOp p => active.erase p
  | _ => active

/-- The processes between `begin_op` and `end_op` are counted, and a commit is under way
    only when there is none. -/
structure State.Brackets (s : State) (active : Finset Nat) : Prop where
  mem : ∀ {p}, p ∈ active ↔ (s.op p).isSome
  count : s.outstanding = active.card
  quiet : s.commit ≠ none → active = ∅

theorem op_of_update {op : Nat → Option Op} {p q : Nat} {o : Option Op} {x : Op}
    (h : Function.update op p o q = some x) : o = some x ∨ op q = some x := by
  by_cases hqp : q = p
  · subst hqp
    rw [Function.update_self] at h
    exact .inl h
  · rw [Function.update_of_ne hqp] at h
    exact .inr h

namespace State.Brackets

variable {start p : Nat} {s t : State} {active : Finset Nat} {l : Label}

theorem init (disk : Disk) (committed : List (List Update)) (returned : Nat) :
    (State.init disk committed returned).Brackets ∅ where
  mem := iff_of_false (Finset.notMem_empty _) Bool.false_ne_true
  count := rfl
  quiet := fun _ => rfl

theorem active_of_op (h : s.Brackets active) {o : Op} (hop : s.op p = some o) : p ∈ active :=
  h.mem.mpr (hop ▸ rfl)

theorem commit_eq_none (h : s.Brackets active) {o : Op} (hop : s.op p = some o) : s.commit = none := by
  by_contra hcommit
  exact Finset.notMem_empty p (h.quiet hcommit ▸ h.active_of_op hop)

theorem op_eq_none (h : s.Brackets active) (hcommit : s.commit ≠ none) (p : Nat) : s.op p = none := by
  rw [← Option.not_isSome_iff_eq_none, ← h.mem, h.quiet hcommit]
  exact Finset.notMem_empty p

/-- An operation goes on. -/
theorem replace (h : s.Brackets active) {o : Op} (hop : s.op p = some o) (o' : Op) (q : Nat) :
    q ∈ active ↔ (Function.update s.op p (some o') q).isSome := by
  by_cases hq : q = p
  · rw [hq, Function.update_self]
    exact iff_of_true (h.active_of_op hop) rfl
  · rw [Function.update_of_ne hq]
    exact h.mem

theorem step (h : s.Brackets active) (hstep : s.Step start l t) : t.Brackets (l.active active) := by
  cases hstep with
  | @beginOp p hop hcommit hroom =>
    refine ⟨fun {q} => ?_, ?_, fun hne => absurd hcommit hne⟩
    · dsimp only [Label.active]
      by_cases hq : q = p
      · rw [hq, Function.update_self]
        exact iff_of_true (Finset.mem_insert_self p active) rfl
      · rw [Function.update_of_ne hq, Finset.mem_insert, or_iff_right hq]
        exact h.mem
    · have hnew : p ∉ active := fun hp => by rw [h.mem, hop] at hp; cases hp
      exact (congrArg (· + 1) h.count).trans (Finset.card_insert_of_notMem hnew).symm
  | logWrite hop hfree hroom => exact ⟨h.replace hop _ _, h.count, h.quiet⟩
  | absorb hop => exact ⟨h.replace hop _ _, h.count, h.quiet⟩
  | @endOp p bs hop =>
    have hp := h.active_of_op hop
    have hcard : s.outstanding - 1 = (active.erase p).card := by rw [Finset.card_erase_of_mem hp, h.count]
    refine ⟨fun {q} => ?_, hcard, fun hne => ?_⟩
    · dsimp only [Label.active]
      by_cases hq : q = p
      · rw [hq, Function.update_self]
        exact iff_of_false (Finset.notMem_erase p active) Bool.false_ne_true
      · rw [Function.update_of_ne hq, Finset.mem_erase, and_iff_right hq]
        exact h.mem
    · by_cases hlast : s.outstanding - 1 = 0
      · exact Finset.card_eq_zero.mp (hcard ▸ hlast)
      · rw [if_neg hlast] at hne
        exact absurd (h.commit_eq_none hop) hne
  | copy hpc hlt => exact ⟨h.mem, h.count, fun _ => h.quiet (hpc ▸ Option.some_ne_none _)⟩
  | nothing hpc hlh => exact ⟨h.mem, h.count, fun hne => absurd rfl hne⟩
  | head hpc hge => exact ⟨h.mem, h.count, fun _ => h.quiet (hpc ▸ Option.some_ne_none _)⟩
  | install hpc hlt => exact ⟨h.mem, h.count, fun _ => h.quiet (hpc ▸ Option.some_ne_none _)⟩
  | erase hpc hge => exact ⟨h.mem, h.count, fun hne => absurd rfl hne⟩
  | read => exact ⟨h.mem, h.count, h.quiet⟩
  | evict hclean hfree => exact ⟨h.mem, h.count, h.quiet⟩

end State.Brackets

end Xv6.Journal
