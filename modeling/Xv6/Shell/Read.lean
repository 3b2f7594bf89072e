-- SUMMARY: The read loop of the shell: GetCommand and main.
import Xv6.Shell.Line

/-! # The read loop

`main` reads a line with `GetCommand`, compares it with `quit`, splits it and executes it,
until a line ends the loop. `GetCommand` allocates a block for each line and does not
initialise it: `heap n` is what the `n`th block holds before `fgets`. At the end of the
input `fgets` stores nothing, so that `GetCommand` goes on with what was there.

Only the shell itself is followed; what the processes do that it forks for a line is not
part of the state.
-/

namespace Xv6.Shell

open Prog

/-! ## Reading -/

/-- At most `n` bytes, up to a newline. -/
def chunk : Nat → List UInt8 → List UInt8
  | 0, _ => []
  | _, [] => []
  | n + 1, c :: cs => if c = newline then [c] else c :: chunk n cs

/-- `fgets(buf, n, stdin)` of the C standard: the block and the input afterwards. -/
def fgets (n : Nat) (input : List UInt8) (buf : Bytes) : Bytes × List UInt8 :=
  let line := chunk (n - 1) input
  if line = [] then (buf, input) else (place buf line, input.drop line.length)

/-- What is left of the input, the number of blocks allocated so far, what was printed, and
    the lines executed so far, each as the words of its commands. -/
structure Session where
  input : List UInt8
  reads : Nat
  output : List UInt8
  executed : List (List (List (List UInt8)))

abbrev ShellProg := Prog Session Fault

def start (input : List UInt8) : Session := ⟨input, 0, [], []⟩

/-- Run code that works on the block `b`. -/
def onText {α : Type} (b : Bytes) (k : TextProg α) : ShellProg α := fun s =>
  match k ⟨b, none⟩ with
  | .ok (a, _) => .ok (a, s)
  | .error e => .error e

def print (bs : List UInt8) : ShellProg Unit := modify fun s => { s with output := s.output ++ bs }

/-- The end of `GetCommand`: delete the newline. -/
def strip (buf : Bytes) : ShellProg Bytes :=
  if buf 0 = newline then pure buf
  else do
    let strlen ← onText buf (seek (· = 0) LINESIZE 0)
    -- `buf[-1]` is outside of the block.
    if strlen = 0 then throw .outside
    else pure (Function.update buf (strlen - 1) 0)

def getCommand (heap : Nat → Bytes) : ShellProg Bytes := do
  let s ← get
  let r := fgets LINESIZE s.input (heap s.reads)
  set { s with input := r.2, reads := s.reads + 1 }
  strip r.1

/-! ## The loop -/

/-- `"prompt> "`. -/
def prompt : List UInt8 := [112, 114, 111, 109, 112, 116, 62, 32]

/-- `"quit"`. -/
def quit : List UInt8 := [113, 117, 105, 116]

/-- `"QUIT"`. -/
def QUIT : List UInt8 := [81, 85, 73, 84]

def Quits (l : List UInt8) : Prop := l = quit ∨ l = QUIT

instance (l : List UInt8) : Decidable (Quits l) := inferInstanceAs (Decidable (_ ∨ _))

/-- The part of a round that comes after `GetCommand`; false if it ends the loop. -/
def handle (buf : Bytes) : ShellProg Bool :=
  if buf 0 = newline then pure true
  else if buf 0 = 0 then pure false
  else do
    let line ← onText buf (string 0)
    if Quits line then pure false
    else do
      let commands ← onText buf runLine
      modify fun s => { s with executed := s.executed ++ [commands] }
      pure true

/-- The part of a round up to `GetCommand`: batch mode prints the line, interactive mode a
    prompt. -/
def readCommand (heap : Nat → Bytes) (batch : Bool) : ShellProg Bytes :=
  if batch then do
    let buf ← getCommand heap
    let line ← onText buf (string 0)
    print (line ++ [newline])
    pure buf
  else do
    print prompt
    getCommand heap

/-- One round of the loop of `main`; false if it ends the loop. -/
def round (heap : Nat → Bytes) (batch : Bool) : ShellProg Bool := do
  let buf ← readCommand heap batch
  handle buf

/-- At most `n` rounds; true if `main` has returned. -/
def mainLoop (heap : Nat → Bytes) (batch : Bool) : Nat → ShellProg Bool
  | 0 => pure false
  | n + 1 => do
    if ← round heap batch then mainLoop heap batch n else pure true

/-! ## One round -/

section Rules

variable {s : Session} {E : Fault → Prop} {b : Bytes} {w : List UInt8}

theorem wp_onText {α : Type} {k : TextProg α} {Q : α → Session → Prop} :
    wp (onText b k) Q E s ↔ wp k (fun a _ => Q a s) E ⟨b, none⟩ := by
  unfold wp onText
  cases k ⟨b, none⟩ <;> rfl

/-- The newline, or whatever comes last, is deleted, unless it comes first. -/
theorem wp_strip {Q : Bytes → Session → Prop} (h : Holds b 0 w) (hnl : w.headD 0 = newline → Q b s)
    (hnil : w = [] → E .outside)
    (hcut : w.headD 0 ≠ newline → w ≠ [] → ∀ b', Holds b' 0 w.dropLast → Q b' s) : wp (strip b) Q E s := by
  rw [strip, h.head]
  split
  · next heq => exact hnl heq
  · next hne =>
    rw [wp_bind, wp_onText]
    refine @wp_seek ⟨b, none⟩ E 0 _ w [] _ _ (by rwa [List.append_nil]) (fun c hc => ?_) rfl rfl ?_
    · exact decide_eq_false (h.ne_zero hc)
    rw [Nat.zero_add]
    split
    · next hzero => exact hnil (List.length_eq_zero_iff.mp hzero)
    · next hlen =>
      have hw : w ≠ [] := fun h => hlen (h ▸ rfl)
      refine hcut hne hw _ ?_
      have hsplit : Holds b 0 (w.dropLast ++ [w.getLast hw]) := by rwa [List.dropLast_concat_getLast]
      have := hsplit.cut
      rwa [Nat.zero_add, List.length_dropLast] at this

/-- The line `v` ends the loop, or it is executed, if there is room in the arrays. -/
theorem wp_handle {v : List UInt8} {Q : Bool → Session → Prop} (h : Holds b 0 v) (hnl : v.headD 0 ≠ newline)
    (hstop : v = [] ∨ Quits v → Q false s)
    (hrun : v ≠ [] → ¬ Quits v → LineFits v → Q true { s with executed := s.executed ++ [commands v] })
    (hfull : v ≠ [] → ¬ Quits v → ¬ LineFits v → E .overflow) : wp (handle b) Q E s := by
  rw [handle, h.head, if_neg hnl]
  cases v with
  | nil => exact hstop (.inl rfl)
  | cons c v =>
    rw [List.headD_cons, if_neg h.2.1, wp_bind, wp_onText]
    refine wp_string h ?_
    split
    · next hq => exact hstop (.inr hq)
    · next hq =>
      rw [wp_bind, wp_onText]
      refine (wp_runLine h).mono ?_ ?_
      · rintro r _ ⟨hfits, rfl⟩
        exact hrun (List.cons_ne_nil c v) hq hfits
      · rintro e ⟨rfl, hno⟩
        exact hfull (List.cons_ne_nil c v) hq hno

variable {heap : Nat → Bytes} {batch : Bool}

/-- The state after a round that has left `i` of the input and executed `cs`. -/
structure Next (s : Session) (i : List UInt8) (cs : List (List (List (List UInt8)))) (t : Session) : Prop where
  input : t.input = i
  reads : t.reads = s.reads + 1
  executed : t.executed = s.executed ++ cs

/-- A round in which the block holds the string `w` after `fgets`. -/
theorem wp_round {i : List UInt8} {Q : Bool → Session → Prop} (hf : fgets LINESIZE s.input (heap s.reads) = (b, i))
    (h : Holds b 0 w) (hnl : w.headD 0 = newline → ∀ t, Next s i [] t → Q true t)
    (hnil : w = [] → E .outside)
    (hstop : w.headD 0 ≠ newline → w ≠ [] → w.dropLast = [] ∨ Quits w.dropLast → ∀ t, Next s i [] t → Q false t)
    (hrun : w.headD 0 ≠ newline → w.dropLast ≠ [] → ¬ Quits w.dropLast → LineFits w.dropLast →
      ∀ t, Next s i [commands w.dropLast] t → Q true t)
    (hfull : w.headD 0 ≠ newline → w.dropLast ≠ [] → ¬ Quits w.dropLast → ¬ LineFits w.dropLast → E .overflow) :
    wp (round heap batch) Q E s := by
  -- What is left to do once the block is stripped, in both modes.
  have hend : ∀ (o : List UInt8), let t : Session := ⟨i, s.reads + 1, o, s.executed⟩
      (w.headD 0 = newline → wp (handle b) Q E t) ∧
      (w.headD 0 ≠ newline → w ≠ [] → ∀ b', Holds b' 0 w.dropLast → wp (handle b') Q E t) := by
    intro o t
    have hnext : ∀ cs, Next s i cs { t with executed := s.executed ++ cs } := fun cs => ⟨rfl, rfl, rfl⟩
    have hnext₀ : Next s i [] t := ⟨rfl, rfl, (List.append_nil _).symm⟩
    refine ⟨fun heq => ?_, fun hne hw b' hb' => ?_⟩
    · rw [handle, h.head, if_pos heq]
      exact hnl heq t hnext₀
    · have hhead : w.dropLast.headD 0 ≠ newline := by
        obtain ⟨c, w', rfl⟩ := List.exists_cons_of_ne_nil hw
        cases w' with
        | nil => exact (by decide : (0 : UInt8) ≠ newline)
        | cons c' w' => exact hne
      exact wp_handle hb' hhead (fun hs => hstop hne hw hs t hnext₀) (fun h₁ h₂ h₃ => hrun hne h₁ h₂ h₃ _ (hnext _))
        fun h₁ h₂ h₃ => hfull hne h₁ h₂ h₃
  cases batch with
  | false =>
    rw [round, wp_bind, readCommand, if_neg Bool.false_ne_true, wp_bind, print, wp_modify, getCommand, wp_bind, wp_get,
      wp_bind]
    dsimp only
    rw [hf, wp_set]
    exact wp_strip h (hend _).1 hnil (hend _).2
  | true =>
    rw [round, wp_bind, readCommand, if_pos rfl, wp_bind, getCommand, wp_bind, wp_get, wp_bind, hf, wp_set]
    refine wp_strip h (fun heq => ?_) hnil fun hne hw b' hb' => ?_
    · rw [wp_bind, wp_onText]
      refine wp_string h ?_
      rw [wp_bind, print, wp_modify, wp_pure]
      exact (hend _).1 heq
    · rw [wp_bind, wp_onText]
      refine wp_string hb' ?_
      rw [wp_bind, print, wp_modify, wp_pure]
      exact (hend _).2 hne hw b' hb'

/-! ## Runs -/

/-- The loop ends within `n` rounds, and then the lines `r` have been executed. -/
def FinishesIn (heap : Nat → Bytes) (batch : Bool) (r : List (List (List (List UInt8)))) (n : Nat) (s : Session) : Prop :=
  ∃ t, mainLoop heap batch n s = .ok (true, t) ∧ t.executed = r

/-- The loop ends, and then the lines `r` have been executed. -/
def Finishes (heap : Nat → Bytes) (batch : Bool) (r : List (List (List (List UInt8)))) (s : Session) : Prop :=
  ∃ n, FinishesIn heap batch r n s

/-- `G` holds of a state if it returns with `r` after a round, or goes on to a state in `F`. -/
structure Unrolls (heap : Nat → Bytes) (batch : Bool) (r : List (List (List (List UInt8)))) (F G : Session → Prop) :
    Prop where
  goesOn : ∀ s t, round heap batch s = .ok (true, t) → (G s ↔ F t)
  ends : ∀ s t, round heap batch s = .ok (false, t) → (G s ↔ t.executed = r)
  faults : ∀ s e, round heap batch s = .error e → ¬ G s

variable {r : List (List (List (List UInt8)))} {i : List UInt8}

theorem mainLoop_of_ok {n : Nat} {t : Session} {x : Bool} (h : round heap batch s = .ok (x, t)) :
    mainLoop heap batch (n + 1) s = if x then mainLoop heap batch n t else .ok (true, t) := by
  rw [mainLoop]
  simp only [bind, StateT.bind, Except.bind, h]
  cases x <;> rfl

theorem mainLoop_of_error {n : Nat} {e : Fault} (h : round heap batch s = .error e) :
    mainLoop heap batch (n + 1) s = .error e := by
  rw [mainLoop]
  simp only [bind, StateT.bind, Except.bind, h]

theorem unrolls_in (n : Nat) : Unrolls heap batch r (FinishesIn heap batch r n) (FinishesIn heap batch r (n + 1)) where
  goesOn := fun s t h => by
    unfold FinishesIn
    rw [mainLoop_of_ok h, if_pos rfl]
  ends := fun s t h => by
    unfold FinishesIn
    rw [mainLoop_of_ok h, if_neg Bool.false_ne_true]
    constructor
    · rintro ⟨u, hrun, hu⟩
      cases hrun
      exact hu
    · intro ht
      exact ⟨t, rfl, ht⟩
  faults := fun s e h => by
    rintro ⟨u, hrun, -⟩
    rw [mainLoop_of_error h] at hrun
    cases hrun

theorem finishes_iff_succ (s : Session) : Finishes heap batch r s ↔ ∃ n, FinishesIn heap batch r (n + 1) s := by
  constructor
  · rintro ⟨n, h⟩
    cases n with
    | zero =>
      obtain ⟨t, hrun, -⟩ := h
      cases hrun
    | succ n => exact ⟨n, h⟩
  · rintro ⟨n, h⟩
    exact ⟨n + 1, h⟩

theorem unrolls : Unrolls heap batch r (Finishes heap batch r) (Finishes heap batch r) where
  goesOn := fun s t h => (finishes_iff_succ s).trans (exists_congr fun n => (unrolls_in n).goesOn s t h)
  ends := fun s t h => by
    rw [finishes_iff_succ]
    constructor
    · rintro ⟨n, hn⟩
      exact ((unrolls_in n).ends s t h).mp hn
    · intro ht
      exact ⟨0, ((unrolls_in 0).ends s t h).mpr ht⟩
  faults := fun s e h => by
    rw [finishes_iff_succ]
    rintro ⟨n, hn⟩
    exact (unrolls_in n).faults s e h hn

section Unrolls

variable {F G : Session → Prop} {P : Prop}

theorem Unrolls.of_wp (hU : Unrolls heap batch r F G)
    (h : wp (round heap batch) (fun x t => if x then (F t ↔ P) else (t.executed = r ↔ P)) (fun _ => ¬ P) s) : G s ↔ P := by
  cases hm : round heap batch s with
  | ok a =>
    obtain ⟨x, t⟩ := a
    have ht := h.of_run hm
    cases x with
    | true => exact (hU.goesOn s t hm).trans ht
    | false => exact (hU.ends s t hm).trans ht
  | error e => exact iff_of_false (hU.faults s e hm) ((wp_iff_run.mp h).2 e hm)

/-- What a round comes to in which the block holds the string `w` after `fgets`. -/
theorem Unrolls.iff (hU : Unrolls heap batch r F G) (hf : fgets LINESIZE s.input (heap s.reads) = (b, i))
    (h : Holds b 0 w) (hnl : w.headD 0 = newline → ∀ t, Next s i [] t → (F t ↔ P))
    (hnil : w = [] → ¬ P)
    (hstop : w.headD 0 ≠ newline → w ≠ [] → w.dropLast = [] ∨ Quits w.dropLast → (s.executed = r ↔ P))
    (hrun : w.headD 0 ≠ newline → w.dropLast ≠ [] → ¬ Quits w.dropLast → LineFits w.dropLast →
      ∀ t, Next s i [commands w.dropLast] t → (F t ↔ P))
    (hfull : w.headD 0 ≠ newline → w.dropLast ≠ [] → ¬ Quits w.dropLast → ¬ LineFits w.dropLast → ¬ P) :
    G s ↔ P := by
  refine hU.of_wp (wp_round hf h (fun h₁ t ht => hnl h₁ t ht) hnil (fun h₁ h₂ h₃ t ht => ?_)
    (fun h₁ h₂ h₃ h₄ t ht => hrun h₁ h₂ h₃ h₄ t ht) hfull)
  have hexec := ht.executed
  rw [List.append_nil] at hexec
  rw [if_neg Bool.false_ne_true, hexec]
  exact hstop h₁ h₂ h₃

end Unrolls

theorem frame_onText {α : Type} (b : Bytes) (k : TextProg α) :
    Prog.Frame (fun s t : Session => s.executed <+: t.executed) (onText b k) := by
  intro s
  rw [wp_onText]
  unfold wp
  cases k ⟨b, none⟩ with
  | ok a => exact List.prefix_rfl
  | error e => trivial

/-- A round only adds to the lines executed. -/
theorem frame_round : Prog.Frame (fun s t : Session => s.executed <+: t.executed) (round heap batch) := by
  have hrefl : ∀ s : Session, s.executed <+: s.executed := fun s => List.prefix_rfl
  have htrans : ∀ s t u : Session, s.executed <+: t.executed → t.executed <+: u.executed → s.executed <+: u.executed :=
    fun _ _ _ h h' => h.trans h'
  have hprint : ∀ bs, Prog.Frame (fun s t : Session => s.executed <+: t.executed) (print bs) := fun bs =>
    frame_modify fun s => List.prefix_rfl
  have hstrip : ∀ b, Prog.Frame (fun s t : Session => s.executed <+: t.executed) (strip b) := fun b => by
    unfold strip
    refine frame_ite (frame_pure hrefl) (frame_bind htrans (frame_onText b _) fun n => ?_)
    exact frame_ite frame_throw (frame_pure hrefl)
  have hget : Prog.Frame (fun s t : Session => s.executed <+: t.executed) (getCommand heap) := by
    intro s
    rw [getCommand, wp_bind, wp_get, wp_bind, wp_set]
    exact hstrip _ _
  unfold round
  refine frame_bind htrans ?_ fun b => ?_
  · unfold readCommand
    refine frame_ite (frame_bind htrans hget fun b => ?_) (frame_bind htrans (hprint _) fun _ => hget)
    exact frame_bind htrans (frame_onText b _) fun l => frame_bind htrans (hprint _) fun _ => frame_pure hrefl
  · unfold handle
    refine frame_ite (frame_pure hrefl) (frame_ite (frame_pure hrefl) (frame_bind htrans (frame_onText b _) fun l => ?_))
    refine frame_ite (frame_pure hrefl) (frame_bind htrans (frame_onText b _) fun cs => ?_)
    exact frame_bind htrans (frame_modify fun s => List.prefix_append _ _) fun _ => frame_pure hrefl

theorem FinishesIn.isPrefix {n : Nat} : ∀ {s : Session}, FinishesIn heap batch r n s → s.executed <+: r := by
  induction n with
  | zero =>
    rintro s ⟨t, hrun, -⟩
    cases hrun
  | succ n ih =>
    intro s h
    cases hm : round heap batch s with
    | error e => exact absurd h ((unrolls_in n).faults s e hm)
    | ok a =>
      obtain ⟨x, t⟩ := a
      have hst := (frame_round s).of_run hm
      cases x with
      | true => exact hst.trans (ih (((unrolls_in n).goesOn s t hm).mp h))
      | false => exact ((unrolls_in n).ends s t hm).mp h ▸ hst

/-! ## The end of the input -/

/-- There is a NUL in the block. -/
def Terminated (b : Bytes) : Prop := ∃ i < LINESIZE, b i = 0

/-- Left alone by `fgets`, the block passes for an empty line. -/
def Skips (batch : Bool) (b : Bytes) : Prop := b 0 = newline ∧ (batch = true → Terminated b)

/-- Left alone by `fgets`, the block ends the loop. -/
def Stops (b : Bytes) : Prop :=
  ∃ w, Holds b 0 w ∧ w ≠ [] ∧ w.headD 0 ≠ newline ∧ (w.dropLast = [] ∨ Quits w.dropLast)

/-- The blocks from the `n`th on end the loop without anything to execute. -/
def AtEnd (heap : Nat → Bytes) (batch : Bool) (n : Nat) : Prop :=
  ∃ k, (∀ j < k, Skips batch (heap (n + j))) ∧ Stops (heap (n + k))

theorem exists_holds (h : Terminated b) : ∃ w, Holds b 0 w := by
  obtain ⟨i, hi, hb⟩ := h
  have hex : ∀ n p, p + n = i → ∃ w, Holds b p w := by
    intro n
    induction n with
    | zero =>
      intro p hp
      exact ⟨[], by omega, by rw [show p = i by omega, hb]⟩
    | succ n ih =>
      intro p hp
      by_cases hzero : b p = 0
      · exact ⟨[], by omega, hzero⟩
      · obtain ⟨w, hw⟩ := ih (p + 1) (by omega)
        exact ⟨b p :: w, rfl, hzero, hw⟩
  exact hex i 0 (Nat.zero_add i)

theorem Holds.terminated (h : Holds b 0 w) : Terminated b :=
  ⟨w.length, by have := h.lt; omega, by
    have hend : Holds b 0 (w ++ []) := by rwa [List.append_nil]
    have := hend.drop.2
    rwa [Nat.zero_add] at this⟩

theorem Holds.unique {w' : List UInt8} {p : Nat} (h : Holds b p w) (h' : Holds b p w') : w = w' := by
  induction w generalizing p w' with
  | nil =>
    cases w' with
    | nil => rfl
    | cons c w' => exact absurd (h'.1.symm.trans h.2) h'.2.1
  | cons c w ih =>
    cases w' with
    | nil => exact absurd (h.1.symm.trans h'.2) h.2.1
    | cons c' w' => rw [h.1.symm.trans h'.1, ih h.2.2 h'.2.2]

theorem wp_seek_outside {t : Text} {stop : UInt8 → Bool} {n p : Nat} {Q : Nat → Text → Prop}
    (h : ∀ i, p ≤ i → i < p + n → stop (t.buf i) = false) (hE : E .outside) : wp (seek stop n p) Q E t := by
  induction n generalizing p with
  | zero => exact hE
  | succ n ih =>
    rw [seek, wp_bind, wp_get, h p le_rfl (by omega)]
    exact ih fun i h₁ h₂ => h i (by omega) (by omega)

/-- A round in which the block holds no string after `fgets`. -/
theorem wp_round_unterminated {Q : Bool → Session → Prop} (hf : fgets LINESIZE s.input (heap s.reads) = (b, i))
    (h : ¬ Terminated b) (hskip : Skips batch b → ∀ t, Next s i [] t → Q true t) (hE : ¬ Skips batch b → E .outside) :
    wp (round heap batch) Q E s := by
  have hseek : ∀ {Q : Nat → Text → Prop}, ¬ Skips batch b → wp (seek (· = 0) LINESIZE 0) Q E ⟨b, none⟩ := by
    intro Q hno
    exact wp_seek_outside (fun j _ hj => decide_eq_false fun hzero => h ⟨j, by omega, hzero⟩) (hE hno)
  cases batch with
  | false =>
    rw [round, wp_bind, readCommand, if_neg Bool.false_ne_true, wp_bind, print, wp_modify, getCommand, wp_bind, wp_get,
      wp_bind]
    dsimp only
    rw [hf, wp_set, strip]
    split
    · next hnl =>
      rw [wp_pure, handle, if_pos hnl]
      exact hskip ⟨hnl, fun h => by cases h⟩ _ ⟨rfl, rfl, (List.append_nil _).symm⟩
    · next hnl =>
      rw [wp_bind, wp_onText]
      exact hseek fun hskip => hnl hskip.1
  | true =>
    have hno : ¬ Skips true b := fun hskip => h (hskip.2 rfl)
    rw [round, wp_bind, readCommand, if_pos rfl, wp_bind, getCommand, wp_bind, wp_get, wp_bind, hf, wp_set, strip]
    split
    · rw [wp_pure, wp_bind, wp_onText, string, wp_bind]
      exact hseek hno
    · rw [wp_bind, wp_onText]
      exact hseek hno

/-- A round at the end of the input. -/
theorem wp_round_end {Q : Bool → Session → Prop} (hin : s.input = [])
    (hskip : Skips batch (heap s.reads) → ∀ t, Next s [] [] t → Q true t)
    (hstop : Stops (heap s.reads) → ∀ t, Next s [] [] t → Q false t)
    (hrun : ¬ Skips batch (heap s.reads) → ¬ Stops (heap s.reads) → ∀ c t, Next s [] [c] t → Q true t)
    (hE : ¬ Skips batch (heap s.reads) → ¬ Stops (heap s.reads) → ∀ e, E e) : wp (round heap batch) Q E s := by
  have hf : fgets LINESIZE s.input (heap s.reads) = (heap s.reads, []) := by
    rw [hin]
    rfl
  by_cases hterm : Terminated (heap s.reads)
  · obtain ⟨w, hw⟩ := exists_holds hterm
    have hnewline : Skips batch (heap s.reads) → w.headD 0 = newline := fun hs => hw.head.symm.trans hs.1
    have hends : Stops (heap s.reads) → w ≠ [] ∧ (w.dropLast = [] ∨ Quits w.dropLast) := by
      rintro ⟨w', hw', hne, -, h⟩
      rw [hw.unique hw']
      exact ⟨hne, h⟩
    refine wp_round hf hw (fun hnl => hskip ⟨hw.head.trans hnl, fun _ => hterm⟩) (fun hnil => ?_)
      (fun hnl hne h => hstop ⟨w, hw, hne, hnl, h⟩) (fun hnl hne hq _ => ?_) fun hnl hne hq _ => ?_
    · refine hE (fun hs => ?_) (fun hs => (hends hs).1 hnil) _
      have := hnewline hs
      rw [hnil] at this
      exact absurd this (by decide)
    · exact hrun (fun hs => hnl (hnewline hs)) (fun hs => (hends hs).2.elim hne hq) _
    · exact hE (fun hs => hnl (hnewline hs)) (fun hs => (hends hs).2.elim hne hq) _
  · refine wp_round_unterminated hf hterm hskip fun hno => hE hno ?_ _
    rintro ⟨w, hw, -⟩
    exact hterm hw.terminated

theorem atEnd_of_stops {n : Nat} (h : Stops (heap n)) : AtEnd heap batch n :=
  ⟨0, fun j hj => absurd hj (Nat.not_lt_zero j), h⟩

theorem AtEnd.of_skips {n : Nat} (h : Skips batch (heap n)) (hn : AtEnd heap batch (n + 1)) : AtEnd heap batch n := by
  obtain ⟨k, hskip, hstop⟩ := hn
  refine ⟨k + 1, fun j hj => ?_, by rwa [Nat.add_right_comm, Nat.add_assoc] at hstop⟩
  cases j with
  | zero => exact h
  | succ j =>
    have := hskip j (by omega)
    rwa [Nat.add_right_comm, Nat.add_assoc] at this

/-- Without input no line may be executed any more. -/
theorem FinishesIn.atEnd {n : Nat} : ∀ {s : Session}, s.input = [] → r.length ≤ s.executed.length →
    FinishesIn heap batch r n s → s.executed = r ∧ AtEnd heap batch s.reads := by
  induction n with
  | zero =>
    rintro s - - ⟨t, hrun, -⟩
    cases hrun
  | succ n ih =>
    intro s hin hlen h
    have hout : ∀ c t, Next s [] [c] t → ¬ FinishesIn heap batch r n t := by
      intro c t ht hfin
      have hle := hfin.isPrefix.length_le
      rw [ht.executed, List.length_append, List.length_singleton] at hle
      omega
    have hwp : wp (round heap batch) (fun x t =>
        (if x then FinishesIn heap batch r n t else t.executed = r) → s.executed = r ∧ AtEnd heap batch s.reads)
        (fun _ => True) s := by
      refine wp_round_end hin (fun hskip t ht hfin => ?_) (fun hstop t ht heq => ?_) (fun _ _ c t ht hfin => ?_)
        fun _ _ _ => trivial
      · obtain ⟨heq, hend⟩ := ih ht.input (by rwa [ht.executed, List.append_nil]) hfin
        rw [ht.executed, List.append_nil] at heq
        rw [ht.reads] at hend
        exact ⟨heq, hend.of_skips hskip⟩
      · rw [if_neg Bool.false_ne_true, ht.executed, List.append_nil] at heq
        exact ⟨heq, atEnd_of_stops hstop⟩
      · exact absurd hfin (hout c t ht)
    cases hm : round heap batch s with
    | error e => exact absurd h ((unrolls_in n).faults s e hm)
    | ok a =>
      obtain ⟨x, t⟩ := a
      have ht := hwp.of_run hm
      cases x with
      | true => exact ht (((unrolls_in n).goesOn s t hm).mp h)
      | false => exact ht (((unrolls_in n).ends s t hm).mp h)

theorem not_skips_of_stops (h : Stops b) : ¬ Skips batch b := by
  obtain ⟨w, hw, -, hnl, -⟩ := h
  exact fun hskip => hnl (hw.head.symm.trans hskip.1)

theorem finishes_of_atEnd {k : Nat} : ∀ {s : Session}, s.input = [] → (∀ j < k, Skips batch (heap (s.reads + j))) →
    Stops (heap (s.reads + k)) → Finishes heap batch s.executed s := by
  induction k with
  | zero =>
    intro s hin _ hstop
    refine (unrolls.of_wp ?_).mpr trivial
    refine wp_round_end hin (fun hskip => absurd hskip (not_skips_of_stops hstop)) (fun _ t ht => ?_)
      (fun _ h => absurd hstop h) fun _ h => absurd hstop h
    rw [if_neg Bool.false_ne_true, ht.executed, List.append_nil]
    exact iff_of_true rfl trivial
  | succ k ih =>
    intro s hin hskip hstop
    have hfirst := hskip 0 (Nat.succ_pos k)
    refine (unrolls.of_wp ?_).mpr trivial
    refine wp_round_end hin (fun _ t ht => ?_) (fun h => absurd hfirst (not_skips_of_stops h))
      (fun h => absurd hfirst h) fun h => absurd hfirst h
    rw [if_pos rfl]
    refine iff_of_true ?_ trivial
    have hexec := ht.executed
    rw [List.append_nil] at hexec
    rw [← hexec]
    refine ih ht.input (fun j hj => ?_) ?_
    · have := hskip (j + 1) (by omega)
      rwa [ht.reads, Nat.add_right_comm, Nat.add_assoc]
    · rwa [ht.reads, Nat.add_right_comm, Nat.add_assoc]

/-- At the end of the input the loop ends well iff the blocks that follow happen to end it. -/
theorem finishes_end_iff (hin : s.input = []) (hlen : r.length ≤ s.executed.length) :
    Finishes heap batch r s ↔ s.executed = r ∧ AtEnd heap batch s.reads := by
  constructor
  · rintro ⟨n, h⟩
    exact h.atEnd hin hlen
  · rintro ⟨rfl, k, hskip, hstop⟩
    exact finishes_of_atEnd hin hskip hstop

end Rules

end Xv6.Shell
