-- SUMMARY: The shell executes the lines of its input: when it does.
import Xv6.Shell.Read

/-! # The lines of the input

What the shell is to do with its input, and when it does that. `GetCommand` deletes the
last byte of what it reads, newline or not, and learns of the end of the input only from
the contents of a block that nobody has written.
-/

namespace Xv6.Shell

open Prog

/-! ## Lines -/

/-- An input without NULs and long lines. -/
structure Stream where
  bytes : List UInt8
  nonzero : ∀ c ∈ bytes, c ≠ 0
  short : ∀ l ∈ bytes.splitOn newline, l.length < 1023

/-- The lines that end in a newline, without it. -/
def lines (input : List UInt8) : List (List UInt8) := (input.splitOn newline).dropLast

/-- What comes behind the last newline. -/
def lastLine (input : List UInt8) : List UInt8 := (input.splitOn newline).getLastD []

/-- The lines to execute, each as the words of its commands. -/
def expected (input : List UInt8) : List (List (List (List UInt8))) :=
  (((lines input ++ [lastLine input]).takeWhile fun l => ¬ Quits l).filter (· ≠ [])).map commands

section Lines

variable {input l r u : List UInt8}

theorem lines_append (hl : newline ∉ l) : lines (l ++ newline :: r) = l :: lines r := by
  unfold lines
  rw [List.splitOn_append_cons_self_of_not_mem hl, List.dropLast_cons_of_ne_nil (List.splitOn_ne_nil _ _)]

theorem lastLine_append (hl : newline ∉ l) : lastLine (l ++ newline :: r) = lastLine r := by
  unfold lastLine
  rw [List.splitOn_append_cons_self_of_not_mem hl]
  cases h : r.splitOn newline with
  | nil => exact absurd h (List.splitOn_ne_nil _ _)
  | cons x xs => rfl

theorem lines_of_notMem (hu : newline ∉ u) : lines u = [] := by
  unfold lines
  rw [List.splitOn_eq_singleton hu]
  rfl

theorem lastLine_of_notMem (hu : newline ∉ u) : lastLine u = u := by
  unfold lastLine
  rw [List.splitOn_eq_singleton hu]
  rfl

theorem expected_append (hl : newline ∉ l) : expected (l ++ newline :: r) =
    if Quits l then [] else if l = [] then expected r else commands l :: expected r := by
  unfold expected
  rw [lines_append hl, lastLine_append hl, List.cons_append, List.takeWhile_cons]
  by_cases hq : Quits l
  · simp [hq]
  · by_cases hnil : l = []
    · subst hnil
      simp [hq]
    · simp [hq, hnil]

theorem expected_of_notMem (hu : newline ∉ u) : expected u = if u = [] ∨ Quits u then [] else [commands u] := by
  unfold expected
  rw [lines_of_notMem hu, lastLine_of_notMem hu, List.nil_append, List.takeWhile_cons]
  by_cases hq : Quits u
  · simp [hq]
  · by_cases hnil : u = []
    · subst hnil
      simp [hq]
    · simp [hq, hnil]

theorem chunk_line (hl : newline ∉ l) {n : Nat} (hn : l.length < n) : chunk n (l ++ newline :: r) = l ++ [newline] := by
  induction l generalizing n with
  | nil =>
    obtain ⟨n, rfl⟩ : ∃ k, n = k + 1 := ⟨n - 1, by rw [List.length_nil] at hn; omega⟩
    rfl
  | cons c l ih =>
    rw [List.length_cons] at hn
    obtain ⟨n, rfl⟩ : ∃ k, n = k + 1 := ⟨n - 1, by omega⟩
    have hc : c ≠ newline := fun h => hl (h ▸ List.mem_cons_self)
    rw [List.cons_append, chunk, if_neg hc, ih (fun h => hl (List.mem_cons_of_mem c h)) (by omega)]
    rfl

theorem chunk_all (hu : newline ∉ u) {n : Nat} (hn : u.length ≤ n) : chunk n u = u := by
  induction u generalizing n with
  | nil => cases n <;> rfl
  | cons c u ih =>
    rw [List.length_cons] at hn
    obtain ⟨n, rfl⟩ : ∃ k, n = k + 1 := ⟨n - 1, by omega⟩
    have hc : c ≠ newline := fun h => hu (h ▸ List.mem_cons_self)
    rw [chunk, if_neg hc, ih (fun h => hu (List.mem_cons_of_mem c h)) (by omega)]

theorem fgets_line (hl : newline ∉ l) (hshort : l.length < 1023) (b : Bytes) :
    fgets LINESIZE (l ++ newline :: r) b = (place b (l ++ [newline]), r) := by
  have hchunk := @chunk_line l r hl (LINESIZE - 1) hshort
  unfold fgets
  rw [hchunk, if_neg (by simp)]
  simp

theorem fgets_rest (hu : newline ∉ u) (hne : u ≠ []) (hshort : u.length < 1023) (b : Bytes) :
    fgets LINESIZE u b = (place b u, []) := by
  have hchunk := @chunk_all u hu (LINESIZE - 1) (by unfold LINESIZE; omega)
  unfold fgets
  rw [hchunk, if_neg hne, List.drop_length]

end Lines

/-! ## The last byte of a line -/

/-- The bytes of all the words of a line. -/
theorem flatten_commands (l : List UInt8) :
    (commands l).flatten.flatten = (l.filter (· ≠ semicolon)).filter (· ≠ space) := by
  rw [← (scan_tokens semicolon l).flatten_eq, List.filter_flatten]
  unfold commands
  induction tokens semicolon l with
  | nil => rfl
  | cons w ws ih =>
    rw [List.map_cons, List.map_cons, List.flatten_cons, List.flatten_append, ih, List.flatten_cons,
      (scan_tokens space w).flatten_eq]

/-- When the commands stay the same although the last byte is deleted. -/
theorem commands_concat_iff {v : List UInt8} {c : UInt8} (hv : v ≠ []) :
    commands (v ++ [c]) = commands v ↔ c = semicolon ∨ (c = space ∧ v.getLast hv ≠ semicolon) := by
  by_cases hsemi : c = semicolon
  · refine iff_of_true ?_ (.inl hsemi)
    unfold commands
    rw [hsemi, tokens_concat_sep]
  by_cases hlast : v.getLast hv = semicolon
  · -- The byte is a command of its own.
    refine iff_of_false (fun heq => ?_) fun h => h.elim hsemi fun h => h.2 hlast
    have hsplit : v = v.dropLast ++ [semicolon] := by rw [← hlast, List.dropLast_concat_getLast]
    have hone : tokens semicolon [c] = [[c]] := tokens_of_notMem (List.cons_ne_nil c []) (by simp [Ne.symm hsemi])
    have hlen := congrArg List.length heq
    unfold commands at hlen
    rw [hsplit, List.append_assoc, List.singleton_append, tokens_append_sep, hone, tokens_concat_sep] at hlen
    simp at hlen
  by_cases hspace : c = space
  · refine iff_of_true ?_ (.inr ⟨hspace, hlast⟩)
    obtain ⟨ts, w, htokens, hconcat⟩ := tokens_concat hsemi hv hlast
    unfold commands
    rw [htokens, hconcat, List.map_append, List.map_append, List.map_singleton, List.map_singleton, hspace,
      tokens_concat_sep]
  · -- The byte belongs to a word.
    refine iff_of_false (fun heq => ?_) fun h => h.elim hsemi fun h => hspace h.1
    have hbytes := congrArg (fun cs : List (List (List UInt8)) => cs.flatten.flatten.length) heq
    simp [flatten_commands, hsemi, hspace] at hbytes

/-! ## The whole input -/

/-- The shell gets by without the last byte of the last line. -/
def SparesLast (u : List UInt8) : Prop :=
  ∃ v c, ∃ hv : v ≠ [], u = v ++ [c] ∧ ¬ Quits v ∧ LineFits v ∧
    (c = semicolon ∨ (c = space ∧ v.getLast hv ≠ semicolon))

/-- Every line in front of the first `quit` fits into the arrays. If there is no `quit`, then
    the shell can do without the last byte of a line that does not end in a newline, and the
    blocks allocated after the end of the input, from the `n`th on, happen to end the loop. -/
structure ReadsWell (heap : Nat → Bytes) (batch : Bool) (n : Nat) (input : List UInt8) : Prop where
  fits : ∀ l ∈ (lines input).takeWhile fun l => ¬ Quits l, LineFits l
  rest : (∀ l ∈ lines input, ¬ Quits l) → lastLine input ≠ [] → SparesLast (lastLine input)
  ends : (∀ l ∈ lines input, ¬ Quits l) →
    AtEnd heap batch (n + (lines input).length + if lastLine input = [] then 0 else 1)

section Whole

variable {heap : Nat → Bytes} {batch : Bool} {s : Session} {l r u : List UInt8} {n : Nat}

theorem readsWell_append (hl : newline ∉ l) : ReadsWell heap batch n (l ++ newline :: r) ↔
    Quits l ∨ (LineFits l ∧ ReadsWell heap batch (n + 1) r) := by
  have hlen : n + (l :: lines r).length = n + 1 + (lines r).length := by
    rw [List.length_cons]
    omega
  by_cases hq : Quits l
  · refine iff_of_true ⟨?_, fun h => ?_, fun h => ?_⟩ (.inl hq)
    · rw [lines_append hl, List.takeWhile_cons_of_neg (by simpa using hq)]
      exact List.forall_mem_nil _
    · rw [lines_append hl] at h
      exact absurd hq (h l List.mem_cons_self)
    · rw [lines_append hl] at h
      exact absurd hq (h l List.mem_cons_self)
  · have hall : (∀ x ∈ l :: lines r, ¬ Quits x) ↔ ∀ x ∈ lines r, ¬ Quits x := by simp [hq]
    have hfits : (∀ x ∈ (l :: lines r).takeWhile fun x => ¬ Quits x, LineFits x) ↔
        LineFits l ∧ ∀ x ∈ (lines r).takeWhile fun x => ¬ Quits x, LineFits x := by
      rw [List.takeWhile_cons_of_pos (by simpa using hq), List.forall_mem_cons]
    constructor
    · rintro ⟨h₁, h₂, h₃⟩
      rw [lines_append hl] at h₁ h₂ h₃
      rw [lastLine_append hl] at h₂ h₃
      rw [hlen] at h₃
      exact .inr ⟨(hfits.mp h₁).1, (hfits.mp h₁).2, fun h => h₂ (hall.mpr h), fun h => h₃ (hall.mpr h)⟩
    · rintro (h | ⟨h₀, h₁, h₂, h₃⟩)
      · exact absurd h hq
      refine ⟨?_, ?_, ?_⟩
      · rw [lines_append hl]
        exact hfits.mpr ⟨h₀, h₁⟩
      · rw [lines_append hl, lastLine_append hl]
        exact fun h => h₂ (hall.mp h)
      · rw [lines_append hl, lastLine_append hl, hlen]
        exact fun h => h₃ (hall.mp h)

theorem readsWell_last (hu : newline ∉ u) : ReadsWell heap batch n u ↔
    (u ≠ [] → SparesLast u) ∧ AtEnd heap batch (n + if u = [] then 0 else 1) := by
  have hnone : ∀ x ∈ lines u, ¬ Quits x := by
    rw [lines_of_notMem hu]
    exact List.forall_mem_nil _
  constructor
  · rintro ⟨-, h₂, h₃⟩
    have h₃ := h₃ hnone
    rw [lines_of_notMem hu, lastLine_of_notMem hu] at h₃
    rw [lastLine_of_notMem hu] at h₂
    exact ⟨h₂ hnone, h₃⟩
  · rintro ⟨h₂, h₃⟩
    refine ⟨?_, fun _ => ?_, fun _ => ?_⟩
    · rw [lines_of_notMem hu]
      exact List.forall_mem_nil _
    · rw [lastLine_of_notMem hu]
      exact h₂
    · rw [lines_of_notMem hu, lastLine_of_notMem hu]
      exact h₃

theorem Quits.ne_nil {v : List UInt8} (h : Quits v) : v ≠ [] := by
  rcases h with rfl | rfl <;> decide

/-- A word behind `quit` makes another line of it. -/
theorem Quits.not_concat {v : List UInt8} (h : Quits v) (c : UInt8) : ¬ Quits (v ++ [c]) := by
  have hlen : ∀ x, Quits x → x.length = 4 := by
    rintro x (rfl | rfl) <;> rfl
  intro hq
  have h₁ := hlen _ h
  have h₂ := hlen _ hq
  rw [List.length_append, List.length_singleton] at h₂
  omega

theorem finishes_last (hs : s.input = u) (hu : newline ∉ u) (hne : u ≠ []) (hnz : ∀ c ∈ u, c ≠ 0) (hshort : u.length < 1023) :
    Finishes heap batch (s.executed ++ expected u) s ↔ SparesLast u ∧ AtEnd heap batch (s.reads + 1) := by
  obtain ⟨v, c, rfl⟩ : ∃ v c, u = v ++ [c] := ⟨u.dropLast, u.getLast hne, (List.dropLast_concat_getLast hne).symm⟩
  have hhead : (v ++ [c]).headD 0 ≠ newline := by
    intro h
    obtain ⟨x, xs, hx⟩ := List.exists_cons_of_ne_nil hne
    rw [hx] at h hu
    exact hu (h ▸ List.mem_cons_self)
  have hspares : SparesLast (v ++ [c]) → ∃ hv : v ≠ [], ¬ Quits v ∧ LineFits v ∧
      (c = semicolon ∨ (c = space ∧ v.getLast hv ≠ semicolon)) := by
    rintro ⟨v', c', hv', heq, h⟩
    obtain ⟨rfl, hc⟩ := List.append_inj' heq rfl
    cases hc
    exact ⟨hv', h⟩
  have hholds : Holds (place (heap s.reads) (v ++ [c])) 0 (v ++ [c]) :=
    holds_place hnz (hshort.trans (by decide)) _
  have hf : fgets LINESIZE s.input (heap s.reads) = (place (heap s.reads) (v ++ [c]), []) := by
    rw [hs]
    exact fgets_rest hu hne hshort _
  refine unrolls.iff hf hholds (fun h => absurd h hhead) (fun h => absurd h hne) ?_ ?_ ?_
  · -- What is left ends the loop: the last line is not executed.
    rw [List.dropLast_concat]
    intro _ _ hstop
    refine iff_of_false (fun heq => ?_) fun h => ?_
    · have hnot : ¬ (v ++ [c] = [] ∨ Quits (v ++ [c])) := by
        rintro (h | h)
        · exact hne h
        · rcases hstop with rfl | hq
          · rcases h with h | h <;> cases h
          · exact hq.not_concat c h
      rw [expected_of_notMem hu, if_neg hnot] at heq
      simp at heq
    · obtain ⟨hv, hq, -⟩ := hspares h.1
      exact hstop.elim hv hq
  · rw [List.dropLast_concat]
    intro _ hv hq hfits t ht
    have hlen : (s.executed ++ expected (v ++ [c])).length ≤ t.executed.length := by
      rw [ht.executed, expected_of_notMem hu]
      split <;> simp
    rw [finishes_end_iff ht.input hlen, ht.executed, ht.reads, List.append_right_inj]
    refine and_congr_left fun _ => ?_
    rw [expected_of_notMem hu]
    by_cases hquit : Quits (v ++ [c])
    · rw [if_pos (.inr hquit)]
      refine iff_of_false (List.cons_ne_nil _ _) fun h => ?_
      obtain ⟨_, _, _, hc⟩ := hspares h
      have hlast : c = 116 ∨ c = 84 := by
        rcases hquit with h | h
        · have := congrArg List.getLast? h
          left
          simpa [quit] using this
        · have := congrArg List.getLast? h
          right
          simpa [QUIT] using this
      rcases hlast with rfl | rfl
      · rcases hc with h | h
        · cases h
        · cases h.1
      · rcases hc with h | h
        · cases h
        · cases h.1
    · rw [if_neg fun h => h.elim hne hquit, List.cons.injEq, and_iff_left rfl, eq_comm, commands_concat_iff hv]
      constructor
      · intro h
        exact ⟨v, c, hv, rfl, hq, hfits, h⟩
      · intro h
        exact (hspares h).choose_spec.2.2
  · rw [List.dropLast_concat]
    intro _ _ _ hno h
    obtain ⟨_, _, hfits, _⟩ := hspares h.1
    exact hno hfits

/-- From any point of the input on. -/
theorem finishes_iff (input : List UInt8) : ∀ s : Session, s.input = input → (∀ c ∈ input, c ≠ 0) →
    (∀ l ∈ input.splitOn newline, l.length < 1023) →
    (Finishes heap batch (s.executed ++ expected input) s ↔ ReadsWell heap batch s.reads input) := by
  induction hn : input.length using Nat.strongRecOn generalizing input with
  | _ n ih =>
    intro s hs hnz hshort
    by_cases hmem : newline ∈ input
    · obtain ⟨l, r, rfl, hl⟩ := List.eq_append_cons_of_mem hmem
      rw [List.splitOn_append_cons_self_of_not_mem hl] at hshort
      have hlshort := hshort l List.mem_cons_self
      have hrest : ∀ t : Session, t.input = r → (Finishes heap batch (t.executed ++ expected r) t ↔
          ReadsWell heap batch t.reads r) := fun t ht =>
        ih r.length (by rw [← hn]; simp; omega) r rfl t ht (fun c hc => hnz c (by simp [hc]))
          fun x hx => hshort x (List.mem_cons_of_mem l hx)
      have hf : fgets LINESIZE s.input (heap s.reads) = (place (heap s.reads) (l ++ [newline]), r) := by
        rw [hs]
        exact fgets_line hl hlshort _
      have hholds : Holds (place (heap s.reads) (l ++ [newline])) 0 (l ++ [newline]) := by
        refine holds_place (fun c hc => hnz c ?_) ?_ _
        · rcases List.mem_append.mp hc with hc | hc
          · exact List.mem_append_left _ hc
          · rw [List.mem_singleton.mp hc]
            exact hmem
        · rw [List.length_append, List.length_singleton]
          unfold LINESIZE
          omega
      rw [readsWell_append hl, expected_append hl]
      refine unrolls.iff hf hholds ?_ (fun h => absurd h (by simp)) ?_ ?_ ?_
      · -- A blank line.
        intro hhead t ht
        have hnil : l = [] := by
          by_contra hne
          obtain ⟨x, xs, rfl⟩ := List.exists_cons_of_ne_nil hne
          exact hl (hhead ▸ List.mem_cons_self)
        have hq : ¬ Quits l := fun h => h.ne_nil hnil
        have hexec := ht.executed
        rw [List.append_nil] at hexec
        rw [if_neg hq, if_pos hnil, ← hexec, hrest t ht.input, ht.reads, hnil]
        refine ⟨fun h => .inr ⟨?_, h⟩, fun h => (h.resolve_left (hnil ▸ hq)).2⟩
        exact ⟨by decide, List.forall_mem_nil _⟩
      · rw [List.dropLast_concat]
        intro hhead _ hstop
        have hne : l ≠ [] := by
          rintro rfl
          exact hhead rfl
        have hq := hstop.resolve_left hne
        rw [if_pos hq, List.append_nil]
        exact iff_of_true rfl (.inl hq)
      · rw [List.dropLast_concat]
        intro _ hne hq hfits t ht
        have happ : s.executed ++ commands l :: expected r = t.executed ++ expected r := by
          rw [ht.executed, List.append_assoc, List.singleton_append]
        rw [if_neg hq, if_neg hne, happ, hrest t ht.input, ht.reads]
        exact ⟨fun h => .inr ⟨hfits, h⟩, fun h => (h.resolve_left hq).2⟩
      · rw [List.dropLast_concat]
        rintro - - hq hno (h | h)
        · exact hq h
        · exact hno h.1
    · rw [readsWell_last hmem]
      by_cases hne : input = []
      · rw [expected_of_notMem hmem, if_pos (.inl hne), List.append_nil, finishes_end_iff (hs.trans hne) le_rfl, if_pos hne]
        exact ⟨fun h => ⟨fun hne' => absurd hne hne', h.2⟩, fun h => ⟨rfl, h.2⟩⟩
      · have hlen : input.length < 1023 := hshort input (by rw [List.splitOn_eq_singleton hmem]; exact List.mem_singleton_self _)
        rw [finishes_last hs hmem hne hnz hlen, if_neg hne]
        exact ⟨fun h => ⟨fun _ => h.1, h.2⟩, fun h => ⟨h.1 hne, h.2⟩⟩

/-- When the shell ends and has executed the lines of its input. -/
theorem executes_input_iff (input : Stream) (heap : Nat → Bytes) (batch : Bool) :
    Finishes heap batch (expected input.bytes) (start input.bytes) ↔ ReadsWell heap batch 0 input.bytes :=
  finishes_iff input.bytes (start input.bytes) rfl input.nonzero input.short

end Whole

/-- `"ls"`, without a newline. -/
def lsOnly : Stream where
  bytes := [108, 115]
  nonzero := by simp
  short := by
    intro l hl
    rw [show ([108, 115] : List UInt8).splitOn newline = [[108, 115]] by decide, List.mem_singleton] at hl
    rw [hl]
    exact Nat.lt_of_sub_pos (Nat.succ_pos _)

/-- The shell executes `l` instead of `ls`. -/
theorem last_byte_lost : (∃ t, mainLoop (fun _ => Bytes.zero) false 1 (start lsOnly.bytes) = .ok (false, t) ∧
      t.executed = [[[[108]]]]) ∧
    ¬ Finishes (fun _ => Bytes.zero) false (expected lsOnly.bytes) (start lsOnly.bytes) := by
  constructor
  · have hrun : (mainLoop (fun _ => Bytes.zero) false 1).returns (start lsOnly.bytes)
        (fun x t => x = false ∧ t.executed = [[[[108]]]]) = true := by decide
    obtain ⟨x, t, hm, htest⟩ := exists_of_returns hrun
    obtain ⟨rfl, ht⟩ := of_decide_eq_true htest
    exact ⟨t, hm, ht⟩
  · intro h
    have hwell := (finishes_iff lsOnly.bytes (start lsOnly.bytes) rfl lsOnly.nonzero lsOnly.short).mp h
    obtain ⟨v, c, hv, heq, -, -, hc⟩ := hwell.rest (by decide) (by decide)
    have hlast : c = 115 := by
      have := congrArg List.getLast? heq
      rw [List.getLast?_concat] at this
      exact (Option.some.inj this).symm
    rcases hc with h | h
    · rw [hlast] at h
      cases h
    · rw [hlast] at h
      cases h.1

end Xv6.Shell
