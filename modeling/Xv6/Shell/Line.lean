-- SUMMARY: Splitting a command line in place: strtok, SplitCommandBySemiColon and SplitCommandBySpace.
import Xv6.Base.Bytes
import Xv6.Base.Tokens
import Xv6.Base.Wp
import Mathlib.Logic.Function.Basic

/-! # Splitting a command line

A command line is a C string in the block of 1024 bytes that `GetCommand` allocates, and
pointers into it are offsets. `strtok` cuts it up by writing NULs into it. The arrays
`splits` are lists of pointers with the size that was allocated for them. An access outside
of a block or an array has no defined meaning: the run stops there.
-/

namespace Xv6.Shell

open Prog

/-- The size of the block for a command line. -/
def LINESIZE : Nat := 1024

def newline : UInt8 := 10
def space : UInt8 := 32
def semicolon : UInt8 := 59

inductive Fault where
  /-- Access outside of the block of the command line. -/
  | outside
  /-- Store behind the end of `splits`. -/
  | overflow
  deriving DecidableEq, Repr

/-- The block of the command line, and the pointer that `strtok` keeps between calls. -/
structure Text where
  buf : Bytes
  save : Option Nat

abbrev TextProg := Prog Text Fault

/-! ## Strings -/

/-- The first byte from `p` on at which `stop` holds; there are `n` bytes to the end of the block. -/
def seek (stop : UInt8 → Bool) : (n p : Nat) → TextProg Nat
  | 0, _ => throw .outside
  | n + 1, p => do
    if stop ((← get).buf p) then pure p else seek stop n (p + 1)

/-- The string at `p`. -/
def string (p : Nat) : TextProg (List UInt8) := do
  let e ← seek (· = 0) (LINESIZE - p) p
  pure ((← get).buf.slice p (e - p))

def strings : List Nat → TextProg (List (List UInt8))
  | [] => pure []
  | p :: ps => do
    let w ← string p
    let ws ← strings ps
    pure (w :: ws)

/-- `strtok` of the C standard, with one delimiter. -/
def strtok (s : Option Nat) (delimiter : UInt8) : TextProg (Option Nat) := do
  match s.or (← get).save with
  | none => pure none
  | some p => do
    let start ← seek (· ≠ delimiter) (LINESIZE - p) p
    if (← get).buf start = 0 then do
      modify fun t => { t with save := none }
      pure none
    else do
      let stop ← seek (fun c => c = delimiter ∨ c = 0) (LINESIZE - start) start
      if (← get).buf stop = 0 then modify fun t => { t with save := none }
      else modify fun t => { buf := Function.update t.buf stop 0, save := some (stop + 1) }
      pure (some start)

/-! ## Splitting -/

/-- The loop of the two functions below. Every round takes a byte at least, so as many rounds
    as the block has bytes are enough. -/
def splitLoop (delimiter : UInt8) (size : Nat) : (fuel : Nat) → (split : Option Nat) → (splits : List Nat) →
    TextProg (List Nat)
  | _, none, splits =>
    -- `splits[counter] = NULL`
    if splits.length < size then pure splits else throw .overflow
  | 0, some _, splits => pure splits
  | fuel + 1, some split, splits =>
    -- `splits[counter++] = split`
    if splits.length < size then do
      let next ← strtok none delimiter
      splitLoop delimiter size fuel next (splits ++ [split])
    else throw .overflow

/-- Split `command` into an array with room for `size` pointers. -/
def splitBy (delimiter : UInt8) (size : Nat) (command : Nat) : TextProg (List Nat) := do
  let split ← strtok (some command) delimiter
  splitLoop delimiter size LINESIZE split []

def splitCommandBySemiColon (command : Nat) : TextProg (List Nat) := splitBy semicolon 256 command

def splitCommandBySpace (command : Nat) : TextProg (List Nat) := splitBy space 128 command

/-- The loop of `ExecuteCommand`: the words of each command, as `execvp` gets them. -/
def splitCommands : List Nat → TextProg (List (List (List UInt8)))
  | [] => pure []
  | command :: rest => do
    let words ← splitCommandBySpace command
    let argv ← strings words
    let argvs ← splitCommands rest
    pure (argv :: argvs)

/-- What `main` does with a line: split it, and run its commands. -/
def runLine : TextProg (List (List (List UInt8))) := do
  let commands ← splitCommandBySemiColon 0
  splitCommands commands

/-! ## Strings in memory -/

/-- The string `w` is at `p`. -/
def Holds (b : Bytes) : Nat → List UInt8 → Prop
  | p, [] => p < LINESIZE ∧ b p = 0
  | p, c :: w => b p = c ∧ c ≠ 0 ∧ Holds b (p + 1) w

namespace Holds

variable {b b' : Bytes} {p : Nat} {u w r : List UInt8}

theorem drop (h : Holds b p (u ++ w)) : Holds b (p + u.length) w := by
  induction u generalizing p with
  | nil => exact h
  | cons c u ih =>
    rw [List.length_cons, Nat.add_comm u.length, ← Nat.add_assoc]
    exact ih h.2.2

theorem lt (h : Holds b p w) : p + w.length < LINESIZE := by
  have hend : Holds b p (w ++ []) := by rwa [List.append_nil]
  exact hend.drop.1

theorem congr (h : Holds b p w) (heq : ∀ i, p ≤ i → i ≤ p + w.length → b' i = b i) : Holds b' p w := by
  induction w generalizing p with
  | nil => exact ⟨h.1, (heq p le_rfl le_rfl).trans h.2⟩
  | cons c w ih =>
    rw [List.length_cons] at heq
    exact ⟨(heq p le_rfl (by omega)).trans h.1, h.2.1, ih h.2.2 fun i h₁ h₂ => heq i (by omega) (by omega)⟩

theorem ne_zero (h : Holds b p w) {c : UInt8} (hc : c ∈ w) : c ≠ 0 := by
  induction w generalizing p with
  | nil => cases hc
  | cons x w ih =>
    cases hc with
    | head => exact h.2.1
    | tail _ hc => exact ih h.2.2 hc

/-- A NUL behind `w` cuts the string off. -/
theorem cut (h : Holds b p (w ++ r)) : Holds (Function.update b (p + w.length) 0) p w := by
  induction w generalizing p with
  | nil =>
    have := h.lt
    rw [List.nil_append] at this
    exact ⟨by omega, Function.update_self _ _ _⟩
  | cons c w ih =>
    have hne : p ≠ p + (c :: w).length := by
      rw [List.length_cons]
      omega
    refine ⟨(Function.update_of_ne hne _ _).trans h.1, h.2.1, ?_⟩
    rw [List.length_cons, Nat.add_comm w.length, ← Nat.add_assoc]
    exact ih h.2.2

theorem slice (h : Holds b p w) : b.slice p w.length = w := by
  induction w generalizing p with
  | nil => rfl
  | cons c w ih =>
    rw [List.length_cons, Nat.add_comm, Bytes.slice_append, ih h.2.2]
    simp [Bytes.slice, h.1]

/-- The byte at `p`. -/
theorem head (h : Holds b p w) : b p = w.headD 0 := by
  cases w with
  | nil => exact h.2
  | cons c w => exact h.1

end Holds

/-- The strings `ws` are at `ps`, one behind the other, from `p` on. -/
def Laid (b : Bytes) : Nat → List Nat → List (List UInt8) → Prop
  | _, [], [] => True
  | p, q :: qs, w :: ws => p ≤ q ∧ Holds b q w ∧ Laid b (q + w.length + 1) qs ws
  | _, _, _ => False

theorem Laid.congr {b b' : Bytes} {p : Nat} {qs : List Nat} {ws : List (List UInt8)} (h : Laid b p qs ws)
    (heq : ∀ i, p ≤ i → b' i = b i) : Laid b' p qs ws := by
  induction qs generalizing p ws with
  | nil =>
    cases ws with
    | nil => trivial
    | cons w ws => exact h.elim
  | cons q qs ih =>
    cases ws with
    | nil => exact h.elim
    | cons w ws =>
      obtain ⟨hle, hw, hws⟩ := h
      exact ⟨hle, hw.congr fun i hi _ => heq i (hle.trans hi), ih hws fun i hi => heq i (by omega)⟩

/-! ## Rules -/

section Rules

variable {t : Text} {E : Fault → Prop} {p : Nat} {d : UInt8}

theorem wp_seek {stop : UInt8 → Bool} {u w : List UInt8} {n : Nat} {Q : Nat → Text → Prop}
    (h : Holds t.buf p (u ++ w)) (hu : ∀ c ∈ u, stop c = false) (hw : stop (w.headD 0) = true)
    (hn : n + p = LINESIZE) (hQ : Q (p + u.length) t) : wp (seek stop n p) Q E t := by
  induction u generalizing p n with
  | nil =>
    have := h.lt
    obtain ⟨n, rfl⟩ : ∃ k, n = k + 1 := ⟨n - 1, by omega⟩
    rw [seek, wp_bind, wp_get, h.head, List.nil_append, if_pos hw]
    exact hQ
  | cons c u ih =>
    have := h.lt
    obtain ⟨n, rfl⟩ : ∃ k, n = k + 1 := ⟨n - 1, by omega⟩
    have hc := hu c List.mem_cons_self
    rw [seek, wp_bind, wp_get, h.1, hc]
    refine ih h.2.2 (fun x hx => hu x (List.mem_cons_of_mem c hx)) (by omega) ?_
    rw [List.length_cons, Nat.add_comm u.length, ← Nat.add_assoc] at hQ
    exact hQ

theorem wp_string {w : List UInt8} {Q : List UInt8 → Text → Prop} (h : Holds t.buf p w) (hQ : Q w t) :
    wp (string p) Q E t := by
  have hlt := h.lt
  rw [string, wp_bind]
  refine @wp_seek t E p _ w [] _ _ (by rwa [List.append_nil]) (fun c hc => ?_) rfl (by omega) ?_
  · exact decide_eq_false (h.ne_zero hc)
  · rw [wp_bind, wp_get, wp_pure, Nat.add_sub_cancel_left, h.slice]
    exact hQ

theorem wp_strings {qs : List Nat} {ws : List (List UInt8)} {Q : List (List UInt8) → Text → Prop}
    (h : Laid t.buf p qs ws) (hQ : Q ws t) : wp (strings qs) Q E t := by
  induction qs generalizing p ws Q with
  | nil =>
    cases ws with
    | nil => exact hQ
    | cons w ws => exact h.elim
  | cons q qs ih =>
    cases ws with
    | nil => exact h.elim
    | cons w ws =>
      rw [strings, wp_bind]
      refine wp_string h.2.1 ?_
      rw [wp_bind]
      exact ih h.2.2 hQ

/-- `strtok` goes on at `p`. -/
def Source (s : Option Nat) (t : Text) (p : Nat) : Prop := s.or t.save = some p

/-- There are delimiters only. -/
theorem wp_strtok_none {s : Option Nat} {u : List UInt8} {Q : Option Nat → Text → Prop} (hs : Source s t p)
    (h : Holds t.buf p u) (hu : ∀ c ∈ u, c = d) (hd : d ≠ 0) (hQ : Q none { t with save := none }) :
    wp (strtok s d) Q E t := by
  have hlt := h.lt
  unfold Source at hs
  rw [strtok, wp_bind, wp_get, hs]
  dsimp only
  rw [wp_bind]
  refine @wp_seek t E p _ u [] _ _ (by rwa [List.append_nil]) (fun c hc => ?_) ?_ (by omega) ?_
  · simpa using hu c hc
  · simpa using Ne.symm hd
  have hend : Holds t.buf p (u ++ []) := by rwa [List.append_nil]
  rw [wp_bind, wp_get, if_pos hend.drop.2]
  exact hQ

/-- There is a token `w`, with `r` behind it. -/
theorem wp_strtok_token {s : Option Nat} {u w r : List UInt8} {Q : Option Nat → Text → Prop} (hs : Source s t p)
    (h : Holds t.buf p (u ++ (w ++ r))) (hu : ∀ c ∈ u, c = d) (hne : w ≠ []) (hw : d ∉ w) (hr : r = [] ∨ ∃ r', r = d :: r')
    (hd : d ≠ 0) (hlast : r = [] → Q (some (p + u.length)) { t with save := none })
    (hmore : r ≠ [] → Q (some (p + u.length))
      ⟨Function.update t.buf (p + u.length + w.length) 0, some (p + u.length + w.length + 1)⟩) :
    wp (strtok s d) Q E t := by
  have hlt := h.lt
  obtain ⟨c, w', hcw⟩ := List.exists_cons_of_ne_nil hne
  have hc : c ≠ d := fun heq => hw (by simp [hcw, heq])
  have hstart := h.drop
  have hc0 : c ≠ 0 := hstart.ne_zero (by simp [hcw])
  have hstop := hstart.drop
  rw [List.length_append, List.length_append] at hlt
  unfold Source at hs
  rw [strtok, wp_bind, wp_get, hs]
  dsimp only
  rw [wp_bind]
  refine wp_seek h (fun x hx => by simpa using hu x hx) (by simpa [hcw] using hc) (by omega) ?_
  rw [wp_bind, wp_get, hstart.head, hcw, List.cons_append, List.headD_cons, if_neg hc0, wp_bind]
  refine wp_seek hstart (fun x hx => ?_) ?_ (by omega) ?_
  · have hxd : x ≠ d := fun heq => hw (heq ▸ hx)
    simp [hxd, hstart.ne_zero (List.mem_append_left r hx)]
  · rcases hr with rfl | ⟨r', rfl⟩ <;> simp
  rw [wp_bind, wp_get, hstop.head]
  rcases hr with rfl | ⟨r', rfl⟩
  · rw [List.headD_nil, if_pos rfl]
    exact hlast rfl
  · rw [List.headD_cons, if_neg hd]
    exact hmore (List.cons_ne_nil d r')

/-- There is nothing left. -/
theorem wp_strtok_done {Q : Option Nat → Text → Prop} (hs : t.save = none) (hQ : Q none t) :
    wp (strtok none d) Q E t := by
  rw [strtok, wp_bind, wp_get, hs]
  exact hQ

/-- The array gets the tokens, if there is room for them and the NULL. -/
theorem wp_splitLoop {l : List UInt8} {ts : List (List UInt8)} (hd : d ≠ 0) (size : Nat) (h : TokenScan d l ts) :
    ∀ (t : Text) (s : Option Nat) (p fuel : Nat) (splits : List Nat), Source s t p → Holds t.buf p l → ts.length ≤ fuel →
      wp (do let split ← strtok s d; splitLoop d size fuel split splits) (fun r t' =>
          splits.length + ts.length < size ∧ (∃ qs, r = splits ++ qs ∧ Laid t'.buf p qs ts) ∧
            ∀ i, i < p ∨ p + l.length ≤ i → t'.buf i = t.buf i)
        (fun e => e = .overflow ∧ size ≤ splits.length + ts.length) t := by
  induction h with
  | none u hu =>
    intro t s p fuel splits hs hb _
    rw [wp_bind]
    refine wp_strtok_none hs hb hu hd ?_
    unfold splitLoop
    split
    · next hlt => exact ⟨hlt, ⟨[], (List.append_nil _).symm, trivial⟩, fun _ _ => rfl⟩
    · next hge => exact ⟨rfl, not_lt.mp hge⟩
  | last u w hu hne hw =>
    intro t s p fuel splits hs hb hfuel
    obtain ⟨fuel, rfl⟩ : ∃ k, fuel = k + 1 := ⟨fuel - 1, by simp at hfuel; omega⟩
    have hb' : Holds t.buf p (u ++ (w ++ [])) := by rwa [List.append_nil]
    have hstart : Holds t.buf (p + u.length) w := hb.drop
    rw [wp_bind]
    refine wp_strtok_token hs hb' hu hne hw (.inl rfl) hd (fun _ => ?_) fun h => absurd rfl h
    rw [splitLoop, List.length_singleton]
    split
    · rw [wp_bind]
      refine wp_strtok_done rfl ?_
      unfold splitLoop
      rw [List.length_append, List.length_singleton]
      split
      · next hlt =>
        refine ⟨hlt, ⟨[p + u.length], rfl, Nat.le_add_right _ _, hstart, trivial⟩, fun _ _ => rfl⟩
      · next hge => exact ⟨rfl, not_lt.mp hge⟩
    · next hge => exact ⟨rfl, by omega⟩
  | more u w r ts hu hne hw _ ih =>
    intro t s p fuel splits hs hb hfuel
    obtain ⟨fuel, rfl⟩ : ∃ k, fuel = k + 1 := ⟨fuel - 1, by simp at hfuel; omega⟩
    rw [List.length_cons] at hfuel ⊢
    have hstart : Holds t.buf (p + u.length) (w ++ d :: r) := hb.drop
    have hrest : Holds t.buf (p + u.length + w.length + 1) r := hstart.drop.2.2
    have hlen : (u ++ (w ++ d :: r)).length = u.length + (w.length + (r.length + 1)) := by simp
    rw [wp_bind]
    refine wp_strtok_token hs hb hu hne hw (.inr ⟨r, rfl⟩) hd (fun h => by cases h) fun _ => ?_
    rw [splitLoop]
    split
    · refine (ih ⟨_, _⟩ none (p + u.length + w.length + 1) fuel (splits ++ [p + u.length]) rfl ?_ (by omega)).mono ?_ ?_
      · exact hrest.congr fun i hi _ => Function.update_of_ne (by omega) _ _
      · rintro ps t' ⟨hlt, ⟨qs, rfl, hlaid⟩, hsame⟩
        rw [List.length_append, List.length_singleton] at hlt
        refine ⟨by omega, ⟨(p + u.length) :: qs, by simp, Nat.le_add_right _ _, ?_, hlaid⟩, fun i hi => ?_⟩
        · -- The rest is split behind the NUL, so the token stays.
          exact hstart.cut.congr fun i _ hi => hsame i (.inl (by omega))
        · rw [hlen] at hi
          exact (hsame i (by omega)).trans (Function.update_of_ne (by omega) _ _)
      · rintro e ⟨rfl, hge⟩
        rw [List.length_append, List.length_singleton] at hge
        exact ⟨rfl, by omega⟩
    · next hge => exact ⟨rfl, by omega⟩

/-- What the two functions do: they fill an array of `size` pointers with the tokens. -/
theorem wp_splitBy {size : Nat} {l : List UInt8} (hd : d ≠ 0) (h : Holds t.buf p l) :
    wp (splitBy d size p) (fun qs t' => (tokens d l).length < size ∧ Laid t'.buf p qs (tokens d l) ∧
        ∀ i, i < p ∨ p + l.length ≤ i → t'.buf i = t.buf i)
      (fun e => e = .overflow ∧ size ≤ (tokens d l).length) t := by
  have hscan := scan_tokens d l
  have hlt := h.lt
  have hfuel : (tokens d l).length ≤ LINESIZE := by
    have := hscan.length_le
    omega
  refine (wp_splitLoop hd size hscan t (some p) p LINESIZE [] rfl h hfuel).mono ?_ ?_
  · rintro qs t' ⟨hlt, ⟨qs', rfl, hlaid⟩, hsame⟩
    rw [List.length_nil, Nat.zero_add] at hlt
    exact ⟨hlt, hlaid, hsame⟩
  · rintro e ⟨rfl, hge⟩
    rw [List.length_nil, Nat.zero_add] at hge
    exact ⟨rfl, hge⟩

/-- Every command of a line has room for its words. -/
def WordsFit (commands : List (List UInt8)) : Prop := ∀ w ∈ commands, (tokens space w).length < 128

theorem wp_splitCommands {qs : List Nat} {ws : List (List UInt8)} (h : Laid t.buf p qs ws) :
    wp (splitCommands qs) (fun r _ => WordsFit ws ∧ r = ws.map (tokens space))
      (fun e => e = .overflow ∧ ¬ WordsFit ws) t := by
  induction qs generalizing p ws t with
  | nil =>
    cases ws with
    | nil => exact ⟨List.forall_mem_nil _, rfl⟩
    | cons w ws => exact h.elim
  | cons q qs ih =>
    cases ws with
    | nil => exact h.elim
    | cons w ws =>
      obtain ⟨_, hw, hws⟩ := h
      rw [splitCommands, wp_bind]
      refine (wp_splitBy (by decide) hw).mono ?_ ?_
      · rintro words t' ⟨hroom, hlaid, hsame⟩
        rw [wp_bind]
        refine wp_strings hlaid ?_
        rw [wp_bind]
        -- Splitting this command has changed nothing behind it.
        refine (ih (hws.congr fun i hi => hsame i (.inr (by omega)))).mono ?_ ?_
        · rintro argvs _ ⟨hfit, rfl⟩
          exact ⟨List.forall_mem_cons.mpr ⟨hroom, hfit⟩, rfl⟩
        · rintro e ⟨rfl, hno⟩
          exact ⟨rfl, fun hfit => hno (List.forall_mem_cons.mp hfit).2⟩
      · rintro e ⟨rfl, hfull⟩
        exact ⟨rfl, fun hfit => absurd ((List.forall_mem_cons.mp hfit).1) (not_lt.mpr hfull)⟩

/-- The arrays have room for a line. -/
def LineFits (l : List UInt8) : Prop := (tokens semicolon l).length < 256 ∧ WordsFit (tokens semicolon l)

/-- The commands of a line, each as the list of its words. -/
def commands (l : List UInt8) : List (List (List UInt8)) := (tokens semicolon l).map (tokens space)

theorem wp_runLine {l : List UInt8} (h : Holds t.buf 0 l) :
    wp runLine (fun r _ => LineFits l ∧ r = commands l) (fun e => e = .overflow ∧ ¬ LineFits l) t := by
  rw [runLine, wp_bind]
  refine (wp_splitBy (by decide) h).mono ?_ ?_
  · rintro qs t' ⟨hroom, hlaid, -⟩
    refine (wp_splitCommands hlaid).mono ?_ ?_
    · rintro r _ ⟨hfit, rfl⟩
      exact ⟨⟨hroom, hfit⟩, rfl⟩
    · rintro e ⟨rfl, hno⟩
      exact ⟨rfl, fun hfit => hno hfit.2⟩
  · rintro e ⟨rfl, hfull⟩
    exact ⟨rfl, fun hfit => absurd hfit.1 (not_lt.mpr hfull)⟩

end Rules

/-! ## The arrays are large enough -/

/-- A command line that `GetCommand` can return. -/
structure Line where
  bytes : List UInt8
  nonzero : ∀ c ∈ bytes, c ≠ 0
  short : bytes.length ≤ 1022

/-- The string `w` at the start of a block with the contents `junk`. -/
def place (junk : Bytes) (w : List UInt8) : Bytes := fun i => w.getD i (if i = w.length then 0 else junk i)

theorem holds_of_getD {b : Bytes} {w : List UInt8} (hw : ∀ c ∈ w, c ≠ 0) {p : Nat} (hlt : p + w.length < LINESIZE)
    (hb : ∀ i, i ≤ w.length → b (p + i) = w.getD i 0) : Holds b p w := by
  induction w generalizing p with
  | nil => exact ⟨hlt, hb 0 le_rfl⟩
  | cons c w ih =>
    rw [List.length_cons] at hlt
    refine ⟨hb 0 (Nat.zero_le _), hw c List.mem_cons_self, ih (fun x hx => hw x (List.mem_cons_of_mem c hx)) (by omega) ?_⟩
    intro i hi
    rw [Nat.add_right_comm, Nat.add_assoc]
    exact hb (i + 1) (Nat.succ_le_succ hi)

theorem holds_place {w : List UInt8} (hw : ∀ c ∈ w, c ≠ 0) (hlt : w.length < LINESIZE) (junk : Bytes) :
    Holds (place junk w) 0 w := by
  refine holds_of_getD hw (by omega) fun i hi => ?_
  unfold place
  rw [Nat.zero_add]
  rcases hi.lt_or_eq with hi | rfl
  · rw [List.getD_eq_getElem _ _ hi, List.getD_eq_getElem _ _ hi]
  · simp

theorem lineFits_iff (l : List UInt8) : LineFits l ↔
    starts semicolon l ≤ 255 ∧ ∀ w ∈ tokens semicolon l, starts space w ≤ 127 := by
  unfold LineFits WordsFit
  simp only [length_tokens, Nat.lt_succ_iff]

/-- No store is behind the end of an array iff the line has at most 255 commands, each of
    at most 127 words. -/
theorem arrays_suffice_iff (l : Line) (junk : Bytes) (save : Option Nat) :
    wp runLine (fun _ _ => True) (fun e => e ≠ .overflow) ⟨place junk l.bytes, save⟩ ↔
      starts semicolon l.bytes ≤ 255 ∧ ∀ w ∈ tokens semicolon l.bytes, starts space w ≤ 127 := by
  have hshort : l.bytes.length < LINESIZE := l.short.trans_lt (by decide)
  have hrun := @wp_runLine ⟨place junk l.bytes, save⟩ _ (holds_place l.nonzero hshort junk)
  rw [← lineFits_iff]
  constructor
  · intro hprop
    by_contra hno
    cases hm : runLine ⟨place junk l.bytes, save⟩ with
    | ok r => exact hno (hrun.of_run hm).1
    | error e => exact (wp_iff_run.mp hprop).2 e hm ((wp_iff_run.mp hrun).2 e hm).1
  · intro hfits
    exact hrun.mono (fun _ _ _ => trivial) fun e he => absurd hfits he.2

/-- `n` times the letter `a` with a separator behind it. -/
def letters (d : UInt8) (n : Nat) : List UInt8 := (List.replicate n [97, d]).flatten

theorem starts_letters {d : UInt8} (hd : 97 ≠ d) (n : Nat) : starts d (letters d n) = n := by
  induction n with
  | zero => rfl
  | succ n ih =>
    have hcons : letters d (n + 1) = 97 :: d :: letters d n := by simp [letters, List.replicate_succ]
    rw [hcons, starts_cons hd, startsAfter_sep, ih]

theorem length_letters (d : UInt8) (n : Nat) : (letters d n).length = 2 * n := by
  simp [letters, Nat.mul_comm]

theorem mem_letters {d c : UInt8} {n : Nat} (h : c ∈ letters d n) : c = 97 ∨ c = d := by
  simp [letters] at h
  exact h.2

/-- 256 commands. -/
def manyCommands : Line where
  bytes := letters semicolon 256
  nonzero := fun c hc => by rcases mem_letters hc with rfl | rfl <;> decide
  short := by
    rw [length_letters]
    decide

/-- One command of 128 words. -/
def manyWords : Line where
  bytes := letters space 128
  nonzero := fun c hc => by rcases mem_letters hc with rfl | rfl <;> decide
  short := by
    rw [length_letters]
    decide

theorem runLine_overflows {l : Line} (h : ¬ LineFits l.bytes) : runLine ⟨place Bytes.zero l.bytes, none⟩ = .error .overflow := by
  have hshort : l.bytes.length < LINESIZE := l.short.trans_lt (by decide)
  have hrun := @wp_runLine ⟨place Bytes.zero l.bytes, none⟩ _ (holds_place l.nonzero hshort Bytes.zero)
  cases hm : runLine ⟨place Bytes.zero l.bytes, none⟩ with
  | ok r => exact absurd (hrun.of_run hm).1 h
  | error e => rw [((wp_iff_run.mp hrun).2 e hm).1]

/-- The 256 commands leave no room for the NULL in the first array, the 128 words none in
    the second. -/
theorem arrays_overflow : runLine ⟨place Bytes.zero manyCommands.bytes, none⟩ = .error .overflow ∧
    runLine ⟨place Bytes.zero manyWords.bytes, none⟩ = .error .overflow := by
  constructor
  · refine runLine_overflows fun hfits => ?_
    have hle := ((lineFits_iff _).mp hfits).1
    have hcount : starts semicolon manyCommands.bytes = 256 := starts_letters (by decide) 256
    omega
  · refine runLine_overflows fun hfits => ?_
    have hone : tokens semicolon manyWords.bytes = [manyWords.bytes] := by
      refine tokens_of_notMem ?_ fun hmem => ?_
      · exact List.ne_nil_of_length_pos (by rw [manyWords, length_letters]; decide)
      · rcases mem_letters hmem with h | h <;> cases h
    have hle := ((lineFits_iff _).mp hfits).2 manyWords.bytes (by rw [hone]; exact List.mem_singleton_self _)
    have hcount : starts space manyWords.bytes = 128 := starts_letters (by decide) 128
    omega

end Xv6.Shell
