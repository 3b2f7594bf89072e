-- SUMMARY: Crash atomicity of the log: recovery leaves what the groups wrote that have reached their commit point.
import Xv6.Disk.Reservation

/-! # Crash recovery

The abstract state of the disk is one function, `replay` of what the committed groups wrote.
At any moment the disk of the machine stands for it in one of two ways: the header names no
block and the home blocks are those of the abstract disk, or the header names blocks whose
new contents are in the log and only these may differ at home. Each single disk write leads
from one such disk to another, and only the write of the header at the commit point changes
the abstract disk.
-/

namespace Xv6.Journal

/-! ## The header -/

theorem word_putBlocks_of_le {hb : Bytes} {i k : Nat} (bs : List Nat) (h : k ≤ i) :
    (putBlocks hb i bs).word k = hb.word k := by
  induction bs generalizing hb i with
  | nil => rfl
  | cons b bs ih => exact (ih (Nat.le_succ_of_le h)).trans (Bytes.word_setWord_ne hb _ (by omega))

theorem word_putBlocks {hb : Bytes} {i j : Nat} {bs : List Nat} (h : j < bs.length) :
    (putBlocks hb i bs).word (i + j + 1) = UInt32.ofNat bs[j] := by
  induction bs generalizing hb i j with
  | nil => exact absurd h (Nat.not_lt_zero j)
  | cons b bs ih =>
    cases j with
    | zero => exact (word_putBlocks_of_le bs le_rfl).trans (Bytes.word_setWord_same hb _ _)
    | succ j =>
      have hj : j < bs.length := Nat.lt_of_succ_lt_succ h
      have hword := @ih (hb.setWord (i + 1) (UInt32.ofNat b)) (i + 1) j hj
      rwa [Nat.add_right_comm i 1 j] at hword

theorem getHead_putHead (hb : Bytes) {lh : List Nat} (hlength : lh.length < 2 ^ 32) (hlt : ∀ b ∈ lh, b < 2 ^ 32) :
    getHead (putHead hb lh) = lh := by
  have hn : ((putHead hb lh).word 0).toNat = lh.length := by
    rw [putHead, word_putBlocks_of_le lh le_rfl, Bytes.word_setWord_same, UInt32.toNat_ofNat_of_lt' hlength]
  apply List.ext_getElem
  · rw [getHead, List.length_map, List.length_range, hn]
  · intro i _ hi
    have hword := @word_putBlocks (hb.setWord 0 (UInt32.ofNat lh.length)) 0 i lh hi
    rw [Nat.zero_add] at hword
    simp only [getHead, List.getElem_map, List.getElem_range, putHead, hword]
    exact UInt32.toNat_ofNat_of_lt' (hlt _ (List.getElem_mem hi))

/-- The header is empty from then on. -/
theorem putHead_nil_putHead_nil (hb : Bytes) : putHead (putHead hb []) [] = putHead hb [] := by
  funext j
  simp only [putHead, putBlocks, Bytes.setWord]
  split <;> rfl

/-! ## Abstract disks -/

/-- A disk after updates, in this order. -/
def replay (d : Disk) (us : List Update) : Disk := us.foldl (fun d u => Function.update d u.1 u.2) d

theorem replay_append (d : Disk) (us vs : List Update) : replay d (us ++ vs) = replay (replay d us) vs :=
  List.foldl_append

/-- A block that is not in the log, with a number that a `uint` can hold. -/
def Home (start b : Nat) : Prop := (b < start ∨ start + LOGSIZE ≤ b) ∧ b < 2 ^ 32

theorem Home.ne_start {start b : Nat} (h : Home start b) : b ≠ start := by
  have hlog := h.1
  simp only [LOGSIZE, MAXOPBLOCKS] at hlog
  omega

theorem Home.ne_log {start b i n : Nat} (h : Home start b) (hi : i < n) (hn : n ≤ LOGSIZE - 1) : b ≠ start + i + 1 := by
  have hlog := h.1
  omega

/-- The header of disk `d` names the blocks `lh`, of which `tail` are installed. The others
    are in the log, and with them the disk is `T` at home. -/
structure Redo (start : Nat) (T d : Disk) (lh : List Nat) (tail : Nat) : Prop where
  header : getHead (d start) = lh
  home : ∀ {b}, b ∈ lh → Home start b
  length : lh.length ≤ LOGSIZE - 1
  copied : ∀ i (hi : i < lh.length), d (start + i + 1) = T lh[i]
  disk : ∀ {b}, Home start b → b ∉ lh.drop tail → d b = T b

namespace Redo

variable {start tail : Nat} {T d : Disk} {lh : List Nat}

/-- A disk with nothing to do. -/
theorem nil (hheader : getHead (d start) = []) (hdisk : ∀ {b}, Home start b → d b = T b) : Redo start T d [] 0 where
  header := hheader
  home := fun hb => absurd hb List.not_mem_nil
  length := Nat.zero_le _
  copied := fun i hi => absurd hi (Nat.not_lt_zero i)
  disk := fun hb _ => hdisk hb

theorem disk_of_nil (h : Redo start T d [] 0) {b : Nat} (hb : Home start b) : d b = T b :=
  h.disk hb List.not_mem_nil

/-- After a crash nothing counts as installed. -/
theorem restart (h : Redo start T d lh tail) : Redo start T d lh 0 :=
  ⟨h.header, h.home, h.length, h.copied, fun hb hnot => h.disk hb fun hmem => hnot (List.mem_of_mem_drop hmem)⟩

theorem mem_drop_succ {b : Nat} (hlt : tail < lh.length) (hb : b ∈ lh.drop tail) (hne : b ≠ lh[tail]) :
    b ∈ lh.drop (tail + 1) := by
  rw [List.drop_eq_getElem_cons hlt] at hb
  exact (List.mem_cons.mp hb).resolve_left hne

theorem install (h : Redo start T d lh tail) (hlt : tail < lh.length) :
    Redo start T (Function.update d lh[tail] (T lh[tail])) lh (tail + 1) := by
  have hhome : Home start lh[tail] := h.home (List.getElem_mem hlt)
  refine ⟨?_, h.home, h.length, fun i hi => ?_, fun {b} hb hnot => ?_⟩
  · rw [Function.update_of_ne hhome.ne_start.symm]
    exact h.header
  · rw [Function.update_of_ne (hhome.ne_log hi h.length).symm]
    exact h.copied i hi
  · by_cases hbt : b = lh[tail]
    · rw [hbt, Function.update_self]
    · rw [Function.update_of_ne hbt]
      exact h.disk hb fun hmem => hnot (mem_drop_succ hlt hmem hbt)

theorem erase (h : Redo start T d lh tail) (hge : lh.length ≤ tail) (hb : Bytes) :
    Redo start T (Function.update d start (putHead hb [])) [] 0 := by
  apply nil
  · rw [Function.update_self]
    exact getHead_putHead hb (by decide) fun b hmem => absurd hmem List.not_mem_nil
  · intro b hb
    rw [Function.update_of_ne hb.ne_start]
    exact h.disk hb (List.drop_eq_nil_of_le hge ▸ List.not_mem_nil)

end Redo

/-! ## Pairs of users and what they hold -/

/-- Each says of the other that it belongs to it. -/
def Matched {α β : Type*} (f : α → Option β) (g : β → Option α) : Prop := ∀ a b, f a = some b ↔ g b = some a

section Matched

variable {α β : Type*} [DecidableEq α] [DecidableEq β] {f : α → Option β} {g : β → Option α} {a : α} {b : β}

theorem Matched.link (h : Matched f g) (ha : f a = none) (hb : g b = none) :
    Matched (Function.update f a (some b)) (Function.update g b (some a)) := by
  intro x y
  by_cases hx : x = a <;> by_cases hy : y = b
  · rw [hx, hy, Function.update_self, Function.update_self]
    exact iff_of_true rfl rfl
  · rw [hx, Function.update_self, Function.update_of_ne hy, ← h a y, ha]
    exact iff_of_false (fun heq => hy (Option.some.inj heq).symm) (Option.some_ne_none _).symm
  · rw [hy, Function.update_self, Function.update_of_ne hx, h x b, hb]
    exact iff_of_false (Option.some_ne_none _).symm fun heq => hx (Option.some.inj heq).symm
  · rw [Function.update_of_ne hx, Function.update_of_ne hy]
    exact h x y

theorem Matched.unlink (h : Matched f g) (ha : f a = some b) :
    Matched (Function.update f a none) (Function.update g b none) := by
  intro x y
  by_cases hx : x = a <;> by_cases hy : y = b
  · rw [hx, hy, Function.update_self, Function.update_self]
    exact iff_of_false (Option.some_ne_none _).symm (Option.some_ne_none _).symm
  · rw [hx, Function.update_self, Function.update_of_ne hy, ← h a y, ha]
    exact iff_of_false (Option.some_ne_none _).symm fun heq => hy (Option.some.inj heq).symm
  · rw [hy, Function.update_self, Function.update_of_ne hx, h x b, (h a b).mp ha]
    exact iff_of_false (fun heq => hx (Option.some.inj heq).symm) (Option.some_ne_none _).symm
  · rw [Function.update_of_ne hx, Function.update_of_ne hy]
    exact h x y

end Matched

/-! ## The running kernel -/

/-- The block for which a process waits in `log_write`. -/
def State.logging (s : State) (p : Nat) : Option Nat := (s.op p).bind Op.logging

theorem logging_update (s : State) (p : Nat) (o : Option Op) :
    (fun q => (Function.update s.op p o q).bind Op.logging) = Function.update s.logging p (o.bind Op.logging) := by
  funext q
  by_cases hq : q = p
  · rw [hq, Function.update_self, Function.update_self]
  · rw [Function.update_of_ne hq, Function.update_of_ne hq]
    rfl

/-- Up to the commit point the disk is `T` at home. The first `tail` blocks are in the log. -/
structure Before (start : Nat) (T : Disk) (s : State) (tail : Nat) : Prop where
  redo : Redo start T s.disk [] 0
  copied : ∀ i (hi : i < s.lh.length), i < tail → s.disk (start + i + 1) = s.bread s.lh[i]
  dirty : ∀ {b}, s.dirty b = true → b ∈ s.lh
  returned : s.returned ≤ s.committed.length

/-- From the commit point on the disk is `T` but for the blocks that are not installed yet. -/
structure After (start : Nat) (T : Disk) (s : State) (tail : Nat) : Prop where
  redo : Redo start T s.disk s.lh tail
  current : s.current = []
  dirty : ∀ {b}, s.dirty b = true → b ∈ s.lh.drop tail
  returned : s.returned < s.committed.length

inductive Phase (start : Nat) (T : Disk) (s : State) : Option Commit → Prop where
  | idle (h : Before start T s 0) : Phase start T s none
  | writeLog {tail : Nat} (h : Before start T s tail) : Phase start T s (some (.writeLog tail))
  | install {tail : Nat} (h : After start T s tail) : Phase start T s (some (.install tail))

/-- The kernel runs on the abstract disk `T`. -/
structure Journaled (start : Nat) (T : Disk) (s : State) : Prop where
  /-- Whoever reads a home block sees the updates. -/
  view : ∀ {b}, Home start b → s.bread b = replay T s.current b
  clean : ∀ {b}, s.dirty b = false → s.holder b = none → s.bread b = s.disk b
  home : ∀ {b}, b ∈ s.lh → Home start b
  held : Matched s.holder s.logging
  logging : ∀ {p b}, s.logging p = some b → Home start b
  phase : Phase start T s s.commit

theorem Redo.init {start : Nat} {T d : Disk} (h : Redo start T d [] 0) {committed : List (List Update)} {returned : Nat}
    (hreturned : returned ≤ committed.length) : Journaled start T (.init d committed returned) where
  view := h.disk_of_nil
  clean := fun _ _ => rfl
  home := fun hb => absurd hb List.not_mem_nil
  held := fun _ _ => iff_of_false (Option.some_ne_none _).symm (Option.some_ne_none _).symm
  logging := fun hop => absurd hop.symm (Option.some_ne_none _)
  phase := .idle {
    redo := h
    copied := fun i hi => absurd hi (Nat.not_lt_zero i)
    dirty := fun hd => absurd hd Bool.false_ne_true
    returned := hreturned }

theorem State.bread_bwrite (s : State) (b : Nat) (c : Bytes) :
    (s.bwrite b c).bread = Function.update s.bread b c := by
  funext x
  by_cases hx : x = b
  · subst hx
    simp only [bread, bwrite, Function.update_self, Option.getD_some]
  · simp only [bread, bwrite, Function.update_of_ne hx]

/-- `bwrite` clears `B_DIRTY`. -/
theorem State.dirty_of_bwrite {s : State} {x b : Nat} (h : Function.update s.dirty x false b = true) :
    b ≠ x ∧ s.dirty b = true := by
  have hne : b ≠ x := fun hb => by
    rw [hb] at h
    exact absurd ((Function.update_self ..).symm.trans h) Bool.false_ne_true
  exact ⟨hne, (Function.update_of_ne hne ..).symm.trans h⟩

namespace Journaled

variable {start p b : Nat} {c : Bytes} {T : Disk} {s t : State} {active : Finset Nat} {bs : List Nat}

/-- While operations are under way, no commit is. -/
theorem before (h : Journaled start T s) (hcommit : s.commit = none) : Before start T s 0 := by
  have hphase := h.phase
  rw [hcommit] at hphase
  cases hphase
  assumption

theorem writing (h : Journaled start T s) {tail : Nat} (hpc : s.commit = some (.writeLog tail)) :
    Before start T s tail := by
  have hphase := h.phase
  rw [hpc] at hphase
  cases hphase
  assumption

theorem installing (h : Journaled start T s) {tail : Nat} (hpc : s.commit = some (.install tail)) :
    After start T s tail := by
  have hphase := h.phase
  rw [hpc] at hphase
  cases hphase
  assumption

theorem holder_eq_none (h : Journaled start T s) (hb : s.Brackets active) (hcommit : s.commit ≠ none) (b : Nat) :
    s.holder b = none := by
  cases hholder : s.holder b with
  | none => rfl
  | some p =>
    have hlogging := (h.held b p).mp hholder
    rw [State.logging, hb.op_eq_none hcommit p] at hlogging
    cases hlogging

/-- A buffer that is not logged shows the disk during a commit. -/
theorem bread_eq_disk (h : Journaled start T s) (hb : s.Brackets active) (hcommit : s.commit ≠ none)
    (hdirty : s.dirty b ≠ true) : s.bread b = s.disk b :=
  h.clean (Bool.eq_false_iff.mpr hdirty) (h.holder_eq_none hb hcommit b)

/-- An operation begins or ends. -/
theorem bracket (h : Journaled start T s) {o : Option Op} (hold : s.logging p = none) (hnew : o.bind Op.logging = none)
    (hcommit : s.commit = none) {n : Nat} {pc : Option Commit} (hpc : pc = none ∨ pc = some (.writeLog 0)) :
    Journaled start T { s with outstanding := n, commit := pc, op := Function.update s.op p o } := by
  have hlogging : (fun q => (Function.update s.op p o q).bind Op.logging) = s.logging := by
    rw [logging_update, hnew, ← hold, Function.update_eq_self]
  refine ⟨h.view, h.clean, h.home, ?_, ?_, ?_⟩
  · show Matched s.holder fun q => (Function.update s.op p o q).bind Op.logging
    exact hlogging ▸ h.held
  · intro q b hq
    exact h.logging ((congrFun hlogging q).symm.trans hq)
  · have hbefore := h.before hcommit
    rcases hpc with rfl | rfl
    · exact .idle ⟨hbefore.redo, hbefore.copied, hbefore.dirty, hbefore.returned⟩
    · exact .writeLog ⟨hbefore.redo, hbefore.copied, hbefore.dirty, hbefore.returned⟩

theorem logWrite (h : Journaled start T s) (hop : s.op p = some ⟨bs, none⟩) (hfree : s.holder b = none)
    (hcommit : s.commit = none) (hhome : Home start b) (cs : List Nat) :
    Journaled start T { s with
      buf := Function.update s.buf b (some c)
      holder := Function.update s.holder b (some p)
      op := Function.update s.op p (some ⟨cs, some b⟩)
      current := s.current ++ [(b, c)] } := by
  have hlogging := logging_update s p (some ⟨cs, some b⟩)
  have hnone : s.logging p = none := by rw [State.logging, hop]; rfl
  refine ⟨fun {x} hx => ?_, fun {x} hdirty hholder => ?_, h.home, ?_, fun {q x} hq => ?_, ?_⟩
  · rw [replay_append]
    by_cases hxb : x = b
    · rw [hxb]
      simp [State.bread, replay]
    · have hview := h.view hx
      simp only [State.bread, replay, List.foldl_cons, List.foldl_nil, Function.update_of_ne hxb] at hview ⊢
      exact hview
  · by_cases hxb : x = b
    · rw [hxb] at hholder
      exact absurd ((Function.update_self ..).symm.trans hholder) (Option.some_ne_none p)
    · have hclean := h.clean hdirty ((Function.update_of_ne hxb ..).symm.trans hholder)
      simp only [State.bread, Function.update_of_ne hxb] at hclean ⊢
      exact hclean
  · show Matched _ fun q => (Function.update s.op p (some ⟨cs, some b⟩) q).bind Op.logging
    rw [hlogging]
    exact h.held.link hfree hnone
  · have hq := (congrFun hlogging q).symm.trans hq
    by_cases hqp : q = p
    · rw [hqp, Function.update_self] at hq
      exact Option.some.inj hq ▸ hhome
    · rw [Function.update_of_ne hqp] at hq
      exact h.logging hq
  · have hbefore := h.before hcommit
    rw [hcommit]
    exact .idle ⟨hbefore.redo, fun i _ hi => absurd hi (Nat.not_lt_zero i), hbefore.dirty,
      hbefore.returned⟩

theorem absorb (h : Journaled start T s) (hop : s.op p = some ⟨bs, some b⟩) (hcommit : s.commit = none) :
    Journaled start T { s with
      lh := if b ∈ s.lh then s.lh else s.lh ++ [b]
      dirty := Function.update s.dirty b true
      holder := Function.update s.holder b none
      op := Function.update s.op p (some ⟨bs, none⟩) } := by
  have hlogging := logging_update s p (some ⟨bs, none⟩)
  have hb : s.logging p = some b := by rw [State.logging, hop]; rfl
  have hlh : ∀ {x}, (x ∈ if b ∈ s.lh then s.lh else s.lh ++ [b]) ↔ x ∈ s.lh ∨ x = b := by
    intro x
    split
    · next hmem => exact ⟨.inl, fun hx => hx.elim id fun heq => heq ▸ hmem⟩
    · rw [List.mem_append, List.mem_singleton]
  refine ⟨h.view, fun {x} hdirty hholder => ?_, fun hx => ?_, ?_, fun {q x} hq => ?_, ?_⟩
  · by_cases hxb : x = b
    · rw [hxb] at hdirty
      exact absurd ((Function.update_self ..).symm.trans hdirty) Bool.false_ne_true.symm
    · exact h.clean ((Function.update_of_ne hxb ..).symm.trans hdirty) ((Function.update_of_ne hxb ..).symm.trans hholder)
  · exact (hlh.mp hx).elim h.home fun heq => heq ▸ h.logging hb
  · show Matched _ fun q => (Function.update s.op p (some ⟨bs, none⟩) q).bind Op.logging
    rw [hlogging]
    exact h.held.unlink ((h.held b p).mpr hb)
  · have hq := (congrFun hlogging q).symm.trans hq
    by_cases hqp : q = p
    · rw [hqp, Function.update_self] at hq
      cases hq
    · rw [Function.update_of_ne hqp] at hq
      exact h.logging hq
  · have hbefore := h.before hcommit
    rw [hcommit]
    refine .idle ⟨hbefore.redo, fun i _ hi => absurd hi (Nat.not_lt_zero i), fun {x} hdirty => ?_,
      hbefore.returned⟩
    by_cases hxb : x = b
    · exact hlh.mpr (.inr hxb)
    · exact hlh.mpr (.inl (hbefore.dirty ((Function.update_of_ne hxb ..).symm.trans hdirty)))

/-- After a disk write the buffer is as clean as the others are. -/
theorem clean_bwrite (h : Journaled start T s) {x : Nat} (hdirty : (s.bwrite x c).dirty b = false)
    (hholder : s.holder b = none) : (s.bwrite x c).bread b = (s.bwrite x c).disk b := by
  rw [s.bread_bwrite]
  by_cases hb : b = x
  · subst hb
    exact (Function.update_self b c s.bread).trans (Function.update_self b c s.disk).symm
  · have hclean := h.clean ((Function.update_of_ne hb ..).symm.trans hdirty) hholder
    exact (Function.update_of_ne hb ..).trans (hclean.trans (Function.update_of_ne hb ..).symm)

/-- What a process reads after a write of some other block. -/
theorem view_bwrite (h : Journaled start T s) {x : Nat} (hhome : Home start b) (hne : b ≠ x) :
    (s.bwrite x c).bread b = replay T s.current b := by
  rw [s.bread_bwrite, Function.update_of_ne hne]
  exact h.view hhome

theorem copy (h : Journaled start T s) {tail : Nat} (hpc : s.commit = some (.writeLog tail))
    (hlt : tail < s.lh.length) (hfit : s.lh.length ≤ LOGSIZE - 1) :
    Journaled start T
      { s.bwrite (start + tail + 1) (s.bread s.lh[tail]) with commit := some (.writeLog (tail + 1)) } := by
  have hbefore := h.writing hpc
  have hne : ∀ {b}, Home start b → b ≠ start + tail + 1 := fun hb => hb.ne_log hlt hfit
  refine ⟨fun hb => h.view_bwrite hb (hne hb), h.clean_bwrite, h.home, h.held, h.logging, .writeLog ?_⟩
  refine ⟨.nil ?_ fun hb => ?_, fun i hi hle => ?_, fun hdirty => hbefore.dirty (State.dirty_of_bwrite hdirty).2,
    hbefore.returned⟩
  · have hstart : start ≠ start + tail + 1 := by omega
    exact (congrArg getHead (Function.update_of_ne hstart ..)).trans hbefore.redo.header
  · exact (Function.update_of_ne (hne hb) ..).trans (hbefore.redo.disk_of_nil hb)
  · have hbread : (s.bwrite (start + tail + 1) (s.bread s.lh[tail])).bread s.lh[i] = s.bread s.lh[i] :=
      (congrFun (s.bread_bwrite _ _) _).trans (Function.update_of_ne (hne (h.home (List.getElem_mem hi))) ..)
    refine Eq.trans ?_ hbread.symm
    by_cases hit : i = tail
    · subst hit
      exact Function.update_self ..
    · have hother : start + i + 1 ≠ start + tail + 1 := by omega
      exact (Function.update_of_ne hother ..).trans (hbefore.copied i hi (by omega))

theorem nothing (h : Journaled start T s) (hb : s.Brackets active) {tail : Nat}
    (hpc : s.commit = some (.writeLog tail)) (hlh : s.lh = []) :
    Journaled start (replay T s.current) { s with
      commit := none, committed := s.committed ++ [s.current], current := [], returned := s.returned + 1 } := by
  have hbefore := h.writing hpc
  refine ⟨h.view, h.clean, h.home, h.held, h.logging, .idle ?_⟩
  refine ⟨.nil hbefore.redo.header fun {b} hhome => ?_, fun i _ hi => absurd hi (Nat.not_lt_zero i), hbefore.dirty, ?_⟩
  · have hdirty : s.dirty b ≠ true := fun hd => absurd (hlh ▸ hbefore.dirty hd) List.not_mem_nil
    exact (h.bread_eq_disk hb (hpc ▸ Option.some_ne_none _) hdirty).symm.trans (h.view hhome)
  · exact (Nat.add_le_add_right hbefore.returned 1).trans (@List.length_append _ s.committed [s.current]).ge

/-- The commit point. -/
theorem head (h : Journaled start T s) (hb : s.Brackets active) {tail : Nat} (hpc : s.commit = some (.writeLog tail))
    (hge : s.lh.length ≤ tail) (hfit : s.lh.length ≤ LOGSIZE - 1) :
    Journaled start (replay T s.current)
      { s.bwrite start (putHead (s.bread start) s.lh) with
        commit := some (.install 0), committed := s.committed ++ [s.current], current := [] } := by
  have hbefore := h.writing hpc
  refine ⟨fun hb => h.view_bwrite hb hb.ne_start, h.clean_bwrite, h.home, h.held, h.logging, .install ?_⟩
  refine ⟨⟨?_, h.home, hfit, fun i hi => ?_, fun {b} hhome hlh => ?_⟩, rfl,
    fun hdirty => hbefore.dirty (State.dirty_of_bwrite hdirty).2, ?_⟩
  · have hhead := getHead_putHead (s.bread start) (hfit.trans_lt (by decide)) fun b hb => (h.home hb).2
    exact (congrArg getHead (Function.update_self ..)).trans hhead
  · have hne : start + i + 1 ≠ start := by omega
    refine (Function.update_of_ne hne ..).trans ((hbefore.copied i hi (hi.trans_le hge)).trans ?_)
    exact h.view (h.home (List.getElem_mem hi))
  · -- a block that is not logged has not changed since the last commit
    have hdirty : s.dirty b ≠ true := fun hd => hlh (hbefore.dirty hd)
    refine (Function.update_of_ne hhome.ne_start ..).trans ?_
    exact (h.bread_eq_disk hb (hpc ▸ Option.some_ne_none _) hdirty).symm.trans (h.view hhome)
  · exact (Nat.lt_succ_of_le hbefore.returned).trans_eq (@List.length_append _ s.committed [s.current]).symm

theorem install (h : Journaled start T s) (hb : s.Brackets active) {tail : Nat}
    (hpc : s.commit = some (.install tail)) (hlt : tail < s.lh.length) :
    Journaled start T
      { s.bwrite s.lh[tail] (s.bread (start + tail + 1)) with commit := some (.install (tail + 1)) } := by
  have hafter := h.installing hpc
  have hlog : s.bread (start + tail + 1) = T s.lh[tail] := by
    have hdirty : s.dirty (start + tail + 1) ≠ true := fun hd =>
      (h.home (List.mem_of_mem_drop (hafter.dirty hd))).ne_log hlt hafter.redo.length rfl
    exact (h.bread_eq_disk hb (hpc ▸ Option.some_ne_none _) hdirty).trans (hafter.redo.copied tail hlt)
  rw [hlog]
  refine ⟨fun {b} hb => ?_, h.clean_bwrite, h.home, h.held, h.logging, .install ?_⟩
  · by_cases hbt : b = s.lh[tail]
    · refine (congrFun (s.bread_bwrite _ _) _).trans ?_
      rw [hbt, Function.update_self]
      exact (congrFun (congrArg (replay T) hafter.current) _).symm
    · exact h.view_bwrite hb hbt
  · refine ⟨hafter.redo.install hlt, hafter.current, fun hdirty => ?_, hafter.returned⟩
    obtain ⟨hbt, hdirty⟩ := State.dirty_of_bwrite hdirty
    exact Redo.mem_drop_succ hlt (hafter.dirty hdirty) hbt

theorem erase (h : Journaled start T s) {tail : Nat} (hpc : s.commit = some (.install tail))
    (hge : s.lh.length ≤ tail) :
    Journaled start T { s.bwrite start (putHead (s.bread start) []) with
      lh := [], commit := none, returned := s.returned + 1 } := by
  have hafter := h.installing hpc
  refine ⟨fun hb => h.view_bwrite hb hb.ne_start, h.clean_bwrite, fun hb => absurd hb List.not_mem_nil, h.held,
    h.logging, .idle ?_⟩
  refine ⟨hafter.redo.erase hge _, fun i _ hi => absurd hi (Nat.not_lt_zero i), fun hdirty => ?_, hafter.returned⟩
  have hmem := hafter.dirty (State.dirty_of_bwrite hdirty).2
  rw [List.drop_eq_nil_of_le hge] at hmem
  exact absurd hmem List.not_mem_nil

/-- What a kernel reads stays the same when it fills or recycles a buffer. -/
theorem rebuffer (h : Journaled start T s) {buf : Nat → Option Bytes}
    (hbuf : ∀ b, (buf b).getD (s.disk b) = s.bread b) : Journaled start T { s with buf := buf } := by
  refine ⟨fun hb => (hbuf _).trans (h.view hb), fun hd hh => (hbuf _).trans (h.clean hd hh), h.home, h.held, h.logging, ?_⟩
  cases hphase : s.commit with
  | none =>
    have hbefore := h.before hphase
    exact .idle ⟨hbefore.redo, fun i hi hlt => (hbefore.copied i hi hlt).trans (hbuf _).symm,
      hbefore.dirty, hbefore.returned⟩
  | some pc =>
    cases pc with
    | writeLog tail =>
      have hbefore := h.writing hphase
      exact .writeLog ⟨hbefore.redo, fun i hi hlt => (hbefore.copied i hi hlt).trans (hbuf _).symm,
        hbefore.dirty, hbefore.returned⟩
    | install tail =>
      have hafter := h.installing hphase
      exact .install ⟨hafter.redo, hafter.current, hafter.dirty, hafter.returned⟩

/-- The disk that a crash leaves. -/
theorem crash (h : Journaled start T s) : ∃ lh, Redo start T s.disk lh 0 := by
  cases hcommit : s.commit with
  | none => exact ⟨[], (h.before hcommit).redo⟩
  | some pc =>
    cases pc with
    | writeLog tail => exact ⟨[], (h.writing hcommit).redo⟩
    | install tail => exact ⟨s.lh, (h.installing hcommit).redo.restart⟩

theorem returned_le (h : Journaled start T s) : s.returned ≤ s.committed.length := by
  cases hcommit : s.commit with
  | none => exact (h.before hcommit).returned
  | some pc =>
    cases pc with
    | writeLog tail => exact (h.writing hcommit).returned
    | install tail => exact (h.installing hcommit).returned.le

end Journaled

/-! ## Machines -/

/-- The log region holds what is logged. -/
def Machine.Holds : Machine → Prop
  | .running s => s.lh.length ≤ LOGSIZE - 1
  | .booting _ => True

/-- `log_write` gets home blocks, and the log has not overflowed when it is committed. -/
def Proper (start : Nat) (m : Machine) : Label → Prop
  | .logWrite _ b _ => Home start b
  | .commit => m.Holds
  | _ => True

/-- What the groups wrote that have reached their commit point. -/
def durable (d : Disk) (committed : List (List Update)) : Disk := replay d committed.flatten

theorem durable_append (d : Disk) (committed : List (List Update)) (us : List Update) :
    durable d (committed ++ [us]) = replay (durable d committed) us := by
  rw [durable, List.flatten_append, replay_append, List.flatten_singleton]
  rfl

/-- What recovery has done. -/
def Boot.Redoing (start : Nat) (T : Disk) (s : Boot) : Prop :=
  match s.lh with
  | none => ∃ lh, Redo start T s.disk lh 0
  | some (lh, tail) => Redo start T s.disk lh tail

/-- The machine stands for what is durable. -/
inductive Atomic (start : Nat) (d : Disk) : Machine → Prop where
  | running {s : State} {active : Finset Nat} (hbrackets : s.Brackets active)
      (hjournaled : Journaled start (durable d s.committed) s) : Atomic start d (.running s)
  | booting {s : Boot} (hredo : s.Redoing start (durable d s.committed))
      (hreturned : s.returned ≤ s.committed.length) : Atomic start d (.booting s)

section Machines

variable {start : Nat} {d T : Disk} {m n : Machine} {s t : State} {l : Label}

/-- A step of a running kernel. -/
theorem Journaled.step {active : Finset Nat} (h : Journaled start (durable d s.committed) s)
    (hb : s.Brackets active) (hok : Proper start (.running s) l) (hstep : s.Step start l t) :
    Journaled start (durable d t.committed) t := by
  cases hstep with
  | beginOp hop hcommit hroom =>
    exact h.bracket (congrArg (Option.bind · Op.logging) hop) rfl hcommit (.inl hcommit)
  | logWrite hop hfree hroom => exact h.logWrite hop hfree (hb.commit_eq_none hop) hok _
  | absorb hop => exact h.absorb hop (hb.commit_eq_none hop)
  | endOp hop =>
    have hcommit := hb.commit_eq_none hop
    refine h.bracket (congrArg (Option.bind · Op.logging) hop) rfl hcommit ?_
    split
    · exact .inr rfl
    · exact .inl hcommit
  | copy hpc hlt => exact h.copy hpc hlt hok
  | nothing hpc hlh => exact (durable_append d s.committed s.current).symm ▸ h.nothing hb hpc hlh
  | head hpc hge => exact (durable_append d s.committed s.current).symm ▸ h.head hb hpc hge hok
  | install hpc hlt => exact h.install hb hpc hlt
  | erase hpc hge => exact h.erase hpc hge
  | @read b =>
    refine h.rebuffer fun x => ?_
    by_cases hx : x = b
    · rw [hx, Function.update_self, Option.getD_some]
    · rw [Function.update_of_ne hx]
      rfl
  | @evict b hclean hfree =>
    refine h.rebuffer fun x => ?_
    by_cases hx : x = b
    · rw [hx, Function.update_self]
      exact (h.clean hclean hfree).symm
    · rw [Function.update_of_ne hx]
      rfl

/-- A step of recovery. -/
theorem Boot.Redoing.step {s : Boot} (h : s.Redoing start (durable d s.committed))
    (hreturned : s.returned ≤ s.committed.length) : Atomic start d (s.step start) := by
  unfold Boot.Redoing at h
  unfold Boot.step
  cases hlh : s.lh with
  | none =>
    rw [hlh] at h
    obtain ⟨lh, hredo⟩ := h
    exact .booting (hredo.header ▸ hredo) hreturned
  | some pc =>
    obtain ⟨lh, tail⟩ := pc
    rw [hlh] at h
    dsimp only
    split
    · next hlt =>
      have hlog := h.copied tail hlt
      exact .booting (hlog ▸ h.install hlt) hreturned
    · next hge => exact .running (.init ..) ((h.erase (Nat.not_lt.mp hge) _).init hreturned)

theorem Machine.next_cases (h : m.next start l = some n) :
    (l = .crash ∧ n = m.crash) ∨ (∃ s t, m = .running s ∧ s.next start l = some t ∧ n = .running t) ∨
    ∃ s, m = .booting s ∧ l = .boot ∧ n = s.step start := by
  unfold next at h
  split at h
  · exact .inl ⟨rfl, (Option.some.inj h).symm⟩
  · split at h
    · next s =>
      obtain ⟨t, ht, hn⟩ := Option.map_eq_some_iff.mp h
      exact .inr (.inl ⟨s, t, rfl, ht, hn.symm⟩)
    · next s _ => exact .inr (.inr ⟨s, rfl, rfl, (Option.some.inj h).symm⟩)
    · cases h

theorem Atomic.returned_le (h : Atomic start d m) : m.returned ≤ m.committed.length := by
  cases h with
  | running hbrackets hjournaled => exact hjournaled.returned_le
  | booting hredo hreturned => exact hreturned

theorem Atomic.crash (h : Atomic start d m) : Atomic start d m.crash := by
  refine .booting ?_ h.returned_le
  cases h with
  | running hbrackets hjournaled => exact hjournaled.crash
  | @booting s hredo hreturned =>
    cases hlh : s.lh with
    | none =>
      rw [Boot.Redoing, hlh] at hredo
      exact hredo
    | some pc =>
      rw [Boot.Redoing, hlh] at hredo
      exact ⟨pc.1, hredo.restart⟩

theorem Atomic.step (h : Atomic start d m) (hok : Proper start m l) (hstep : m.next start l = some n) :
    Atomic start d n := by
  obtain ⟨rfl, rfl⟩ | ⟨s, t, rfl, hnext, rfl⟩ | ⟨s, rfl, rfl, rfl⟩ := Machine.next_cases hstep
  · exact h.crash
  · cases h with
    | running hbrackets hjournaled =>
      have hnext := State.step_of_next hnext
      exact .running (hbrackets.step hnext) (hjournaled.step hbrackets hok hnext)
  · cases h with
    | booting hredo hreturned => exact hredo.step hreturned

theorem Run.atomic (h : Run (Machine.next start) (Proper start) m n) (hm : Atomic start d m) : Atomic start d n := by
  induction h with
  | refl => exact hm
  | step _ l hok hstep ih => exact ih.step hok hstep

/-! ## Recovery -/

/-- Nothing happens but crashes and `recover_from_log`. -/
def Recovering (_ : Machine) (l : Label) : Prop := l = .crash ∨ l = .boot

theorem Recovering.proper (h : Recovering m l) : Proper start m l := by
  rcases h with rfl | rfl <;> exact trivial

/-- What recovery of `m` gets to. -/
inductive Recovered (start : Nat) (m : Machine) : Machine → Prop where
  | booting {s : Boot} (hcommitted : s.committed = m.committed) (hreturned : s.returned = m.returned) :
      Recovered start m (.booting s)
  | running {d : Disk} (hhead : putHead (d start) [] = d start) :
      Recovered start m (.running (.init d m.committed m.returned))

theorem Recovered.step (h : Recovered start m n) {k : Machine} (hok : Recovering n l)
    (hstep : n.next start l = some k) : Recovered start m k := by
  obtain ⟨rfl, rfl⟩ | ⟨s, t, rfl, hnext, rfl⟩ | ⟨s, rfl, rfl, rfl⟩ := Machine.next_cases hstep
  · cases h with
    | booting hcommitted hreturned => exact .booting hcommitted hreturned
    | running hhead => exact .booting rfl rfl
  · rcases hok with rfl | rfl <;> cases hnext
  · cases h with
    | booting hcommitted hreturned =>
      unfold Boot.step
      split
      · exact .booting hcommitted hreturned
      · split
        · exact .booting hcommitted hreturned
        · rw [hcommitted, hreturned]
          refine .running ?_
          rw [Function.update_self]
          exact putHead_nil_putHead_nil _

theorem Run.recovered (h : Run (Machine.next start) Recovering m.crash n) : Recovered start m n := by
  induction h with
  | refl => exact .booting rfl rfl
  | step _ l hok hstep ih => exact ih.step hok hstep

theorem Run.boot (start : Nat) (s : Boot) : Run (Machine.next start) Recovering (.booting s) (s.step start) :=
  .step .refl .boot (.inr rfl) rfl

theorem exists_installed (start : Nat) (d : Disk) (lh : List Nat) (tail : Nat) (committed : List (List Update))
    (returned : Nat) :
    ∃ t, Run (Machine.next start) Recovering (.booting ⟨d, some (lh, tail), committed, returned⟩) (.running t) := by
  induction hn : lh.length - tail generalizing d tail with
  | zero =>
    have hboot := Run.boot start ⟨d, some (lh, tail), committed, returned⟩
    dsimp only [Boot.step] at hboot
    rw [dif_neg (by omega)] at hboot
    exact ⟨_, hboot⟩
  | succ n ih =>
    have hboot := Run.boot start ⟨d, some (lh, tail), committed, returned⟩
    dsimp only [Boot.step] at hboot
    rw [dif_pos (by omega)] at hboot
    obtain ⟨t, ht⟩ := ih _ (tail + 1) (by omega)
    exact ⟨t, hboot.trans ht⟩

/-- Recovery comes to its end when no crash interrupts it. -/
theorem exists_recovery (start : Nat) (m : Machine) :
    ∃ t, Run (Machine.next start) Recovering m.crash (.running t) := by
  have hhead := Run.boot start ⟨m.disk, none, m.committed, m.returned⟩
  obtain ⟨t, ht⟩ := exists_installed start m.disk (getHead (m.disk start)) 0 m.committed m.returned
  exact ⟨t, hhead.trans ht⟩

/-- A disk with an empty header is left alone. -/
theorem Run.disk_eq (h : Run (Machine.next start) Recovering m.crash n) (hempty : getHead (m.disk start) = [])
    (hhead : putHead (m.disk start) [] = m.disk start) : n.disk = m.disk := by
  have hinv : n.disk = m.disk ∧ ∀ s lh tail, n = .booting s → s.lh = some (lh, tail) → lh = [] := by
    induction h with
    | refl => exact ⟨rfl, fun s lh tail heq hlh => by cases heq; cases hlh⟩
    | @step n k _ l hok hstep ih =>
      obtain ⟨hdisk, hlh⟩ := ih
      obtain ⟨rfl, rfl⟩ | ⟨s, t, rfl, hnext, rfl⟩ | ⟨s, rfl, rfl, rfl⟩ := Machine.next_cases hstep
      · exact ⟨hdisk, fun s lh tail heq hlh => by cases heq; cases hlh⟩
      · rcases hok with rfl | rfl <;> cases hnext
      · have hs : s.disk = m.disk := hdisk
        unfold Boot.step
        split
        · refine ⟨hdisk, fun u lh tail heq hu => ?_⟩
          cases heq
          cases hu
          rw [hs, hempty]
        · next lh tail hpc =>
          obtain rfl := hlh s lh tail rfl hpc
          rw [dif_neg (by simp)]
          refine ⟨?_, fun u lh tail heq => by cases heq⟩
          show Function.update s.disk start (putHead (s.disk start) []) = m.disk
          rw [hs, hhead, Function.update_eq_self]
  exact hinv.1

end Machines

/-- Whatever happens from a clean log on, and wherever it crashes: recovery comes to an end,
    however often it is interrupted it leaves the home blocks with what the groups wrote
    that have reached their commit point, among them all whose commit has returned, and
    another recovery changes nothing. The groups consist of whole operations. -/
theorem crash_leaves_whole_groups (start : Nat) (d : Disk) (m : Machine) (hclean : getHead (d start) = [])
    (h : Run (Machine.next start) (Proper start) (.booting ⟨d, none, [], 0⟩) m) :
    (∃ t, Run (Machine.next start) Recovering m.crash (.running t)) ∧
    (∀ t, Run (Machine.next start) Recovering m.crash (.running t) →
      (∀ b, Home start b → t.disk b = durable d m.committed b) ∧
      ∀ u, Run (Machine.next start) Recovering (Machine.crash (.running t)) (.running u) → u.disk = t.disk) ∧
    m.returned ≤ m.committed.length ∧
    ∀ s l t, m = .running s → s.next start l = some t →
      t.committed = s.committed ∨ t.committed = s.committed ++ [s.current] ∧ ∀ p, s.op p = none := by
  have hatomic : Atomic start d m := h.atomic (.booting ⟨[], .nil hclean fun _ => rfl⟩ le_rfl)
  refine ⟨exists_recovery start m, fun t ht => ?_, hatomic.returned_le, ?_⟩
  · have hproper : ∀ {n}, Run (Machine.next start) Recovering m.crash n → Atomic start d n := fun hn => by
      induction hn with
      | refl => exact hatomic.crash
      | step _ l hok hstep ih => exact ih.step hok.proper hstep
    have hafter := hproper ht
    cases ht.recovered with
    | running hhead =>
      cases hafter with
      | running hbrackets hjournaled =>
        have hredo := (hjournaled.before rfl).redo
        exact ⟨fun b hb => hredo.disk_of_nil hb, fun u hu => hu.disk_eq hredo.header hhead⟩
  · rintro s l t rfl hnext
    cases hatomic with
    | running hbrackets hjournaled =>
      cases State.step_of_next hnext with
      | nothing hpc hlh => exact .inr ⟨rfl, hbrackets.op_eq_none (hpc ▸ Option.some_ne_none _)⟩
      | head hpc hge => exact .inr ⟨rfl, hbrackets.op_eq_none (hpc ▸ Option.some_ne_none _)⟩
      | _ => exact .inl rfl

instance (start b : Nat) : Decidable (Home start b) := by unfold Home; infer_instance

instance : (m : Machine) → Decidable m.Holds
  | .running s => inferInstanceAs (Decidable (s.lh.length ≤ LOGSIZE - 1))
  | .booting _ => isTrue trivial

instance (start : Nat) (m : Machine) : (l : Label) → Decidable (Proper start m l)
  | .logWrite _ b _ => inferInstanceAs (Decidable (Home start b))
  | .commit => inferInstanceAs (Decidable m.Holds)
  | .beginOp _ | .absorb _ | .endOp _ | .read _ | .evict _ | .crash | .boot => isTrue trivial

/-- A crash right after the commit point of an operation that changes one block. -/
theorem crash_after_commit_point : ∃ m t, Run (Machine.next 2) (Proper 2) (.booting ⟨fun _ => .zero, none, [], 0⟩) m ∧
    m.disk 100 0 = 0 ∧ Run (Machine.next 2) Recovering m.crash (.running t) ∧ t.disk 100 0 = 1 := by
  have hplay : (play (Machine.next 2) (Proper 2) (.booting ⟨fun _ => .zero, none, [], 0⟩)
      [.boot, .boot, .beginOp 0, .logWrite 0 100 fun _ => 1, .absorb 0, .endOp 0, .commit, .commit]).any (fun m =>
        m.disk 100 0 = 0 ∧ durable (fun _ => .zero) m.committed 100 0 = 1) = true := by
    decide +kernel
  obtain ⟨m, hm, hdisk⟩ := (Option.any_eq_true _ _).mp hplay
  obtain ⟨hold, hnew⟩ := of_decide_eq_true hdisk
  have hrun : Run (Machine.next 2) (Proper 2) (.booting ⟨fun _ => .zero, none, [], 0⟩) m := .of_play .refl hm
  have hclean : getHead Bytes.zero = [] := by decide +kernel
  obtain ⟨⟨t, ht⟩, hafter, -⟩ := crash_leaves_whole_groups 2 (fun _ => .zero) m hclean hrun
  have hblock := (hafter t ht).1 100 (by decide)
  exact ⟨m, t, hrun, hold, ht, (congrFun hblock 0).trans hnew⟩

/-! ## Operations that leave one block of their reservation -/

/-- The block that `log_write` gets. -/
def Label.block : Label → Option Nat
  | .logWrite _ b _ => some b
  | _ => none

/-- An operation passes home blocks to `log_write`, `MAXOPBLOCKS - 1` of them at most. -/
def Frugal (start : Nat) (s : State) (l : Label) : Prop := Within (MAXOPBLOCKS - 1) s l ∧ ∀ b ∈ l.block, Home start b

instance (start : Nat) (s : State) (l : Label) : Decidable (Frugal start s l) := inferInstanceAs (Decidable (_ ∧ _))

theorem Run.mono {σ : Type} {next : σ → Label → Option σ} {Ok Ok' : σ → Label → Prop} {s t : σ}
    (h : Run next Ok s t) (hle : ∀ {u l}, Ok u l → Ok' u l) : Run next Ok' s t := by
  induction h with
  | refl => exact .refl
  | step _ l hok hstep ih => exact .step ih l (hle hok) hstep

section Frugal

variable {start : Nat} {d T : Disk} {s v : State} {l : Label}
  (h : Run (State.next start) (Frugal start) (.init d [] 0) s)
include h

theorem Run.proper (hok : Frugal start s l) : Proper start (.running s) l := by
  cases l with
  | logWrite p b c => exact hok.2 b rfl
  | commit => exact (h.mono And.left).room.le
  | _ => trivial

theorem Run.journaled (hredo : Redo start T d [] 0) :
    ∃ active, s.Brackets active ∧ Journaled start (durable T s.committed) s := by
  induction h with
  | refl => exact ⟨∅, .init .., hredo.init le_rfl⟩
  | step hrun l hok hstep ih =>
    obtain ⟨active, hb, hjournaled⟩ := ih
    have hstep := State.step_of_next hstep
    exact ⟨_, hb.step hstep, hjournaled.step hb (hrun.proper hok) hstep⟩

theorem Run.recovers (hredo : Redo start T d [] 0)
    (hv : Run (Machine.next start) Recovering (Machine.crash (.running s)) (.running v)) :
    Redo start (durable T s.committed) v.disk [] 0 := by
  obtain ⟨active, hb, hjournaled⟩ := h.journaled hredo
  have hatomic := (hv.mono Recovering.proper).atomic (Atomic.running hb hjournaled).crash
  cases hv.recovered with
  | running hhead =>
    cases hatomic with
    | running hb' hjournaled' => exact (hjournaled'.before rfl).redo

/-- If no operation passes more than `MAXOPBLOCKS - 1` blocks to `log_write`, it never panics,
    and whenever the machine crashes, recovery leaves what the groups wrote that have reached
    their commit point. -/
theorem frugal_operations_recover (hclean : getHead (d start) = []) :
    ¬ s.tooBig ∧ ∀ v, Run (Machine.next start) Recovering (Machine.crash (.running s)) (.running v) →
      ∀ b, Home start b → v.disk b = durable d s.committed b := by
  have hroom := (h.mono And.left).room
  refine ⟨?_, fun v hv b hb => (h.recovers (.nil hclean fun _ => rfl) hv).disk_of_nil hb⟩
  unfold State.tooBig
  omega

end Frugal

/-- Three operations that have passed nine blocks each. -/
theorem frugal_operations_full : ∃ s, Run (State.next 2) (Frugal 2) (.init (fun _ => .zero) [] 0) s ∧
    s.lh.length = 27 ∧ ¬ s.tooBig := by
  have hplay : (play (State.next 2) (Frugal 2) (.init (fun _ => .zero) [] 0) ([.beginOp 0, .beginOp 1, .beginOp 2] ++
      logBlocks 0 1000 9 ++ logBlocks 1 2000 9 ++ logBlocks 2 3000 9)).any (fun s => s.lh.length = 27) = true := by
    decide +kernel
  obtain ⟨s, hs, hlength⟩ := (Option.any_eq_true _ _).mp hplay
  have hrun := Run.of_play .refl hs
  exact ⟨s, hrun, of_decide_eq_true hlength, (frugal_operations_recover hrun (by decide +kernel)).1⟩

end Xv6.Journal
