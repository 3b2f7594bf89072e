-- SUMMARY: The tokens of a list: its non-empty runs between separators.
import Mathlib.Data.List.TakeWhile
import Mathlib.Tactic.Common

/-! # Tokens

`tokens d l` are the maximal non-empty runs of `l` without the separator `d`. A scanner
finds them one at a time: it skips separators, takes what comes up to the next one, and
goes on behind it. `TokenScan` is the run of such a scanner.
-/

section Tokens

variable {α : Type} {d : α}

/-! ## Tokens and scanners -/

/-- The non-empty pieces of `l` between separators. -/
def tokens [DecidableEq α] (d : α) (l : List α) : List (List α) := (l.splitOn d).filter (· ≠ [])

/-- How a scanner takes the tokens from a list: there are separators only, a last token,
    or a token, the separator behind it, and more. -/
inductive TokenScan (d : α) : List α → List (List α) → Prop where
  | none (u : List α) (hu : ∀ c ∈ u, c = d) : TokenScan d u []
  | last (u w : List α) (hu : ∀ c ∈ u, c = d) (hne : w ≠ []) (hw : d ∉ w) : TokenScan d (u ++ w) [w]
  | more (u w r : List α) (ts : List (List α)) (hu : ∀ c ∈ u, c = d) (hne : w ≠ []) (hw : d ∉ w)
      (hr : TokenScan d r ts) : TokenScan d (u ++ (w ++ d :: r)) (w :: ts)

theorem TokenScan.sep {l : List α} {ts : List (List α)} (h : TokenScan d l ts) : TokenScan d (d :: l) ts := by
  cases h with
  | none _ hu => exact .none _ (List.forall_mem_cons.mpr ⟨rfl, hu⟩)
  | last u w hu hne hw => exact .last (d :: u) w (List.forall_mem_cons.mpr ⟨rfl, hu⟩) hne hw
  | more u w r ts hu hne hw hr => exact .more (d :: u) w r ts (List.forall_mem_cons.mpr ⟨rfl, hu⟩) hne hw hr

theorem TokenScan.length_le {l : List α} {ts : List (List α)} (h : TokenScan d l ts) : ts.length ≤ l.length := by
  induction h with
  | none u _ => exact Nat.zero_le _
  | last u w _ hne _ =>
    have := List.length_pos_iff.mpr hne
    rw [List.length_singleton, List.length_append]
    omega
  | more u w r ts _ hne _ _ ih =>
    have := List.length_pos_iff.mpr hne
    rw [List.length_append, List.length_append, List.length_cons, List.length_cons]
    omega

section Decidable

variable [DecidableEq α]

@[simp] theorem tokens_nil : tokens d [] = [] := by
  simp [tokens]

theorem tokens_append_sep (l r : List α) : tokens d (l ++ d :: r) = tokens d l ++ tokens d r := by
  unfold tokens
  rw [List.splitOn_append_cons_self, List.filter_append]

@[simp] theorem tokens_cons_sep (l : List α) : tokens d (d :: l) = tokens d l := by
  have h := @tokens_append_sep _ d _ [] l
  rwa [List.nil_append, tokens_nil, List.nil_append] at h

theorem tokens_of_notMem {l : List α} (hne : l ≠ []) (h : d ∉ l) : tokens d l = [l] := by
  unfold tokens
  rw [List.splitOn_eq_singleton h]
  simp [hne]

/-- Leading separators do not matter. -/
theorem tokens_dropWhile (l : List α) : tokens d (l.dropWhile (· = d)) = tokens d l := by
  induction l with
  | nil => rfl
  | cons c l ih =>
    by_cases hc : c = d
    · rw [List.dropWhile_cons_of_pos (by simpa using hc), hc, tokens_cons_sep]
      exact ih
    · rw [List.dropWhile_cons_of_neg (by simpa using hc)]

/-- A token goes up to the next separator. -/
theorem tokens_cons {c : α} (hc : c ≠ d) (l : List α) : tokens d (c :: l) =
    (c :: l).takeWhile (· ≠ d) :: tokens d ((c :: l).dropWhile (· ≠ d)) := by
  have hne : (c :: l).takeWhile (· ≠ d) ≠ [] := by
    rw [List.takeWhile_cons_of_pos (by simpa using hc)]
    simp
  have hw : d ∉ (c :: l).takeWhile (· ≠ d) := by
    intro hmem
    have := List.mem_takeWhile_imp hmem
    simp at this
  have hsplit := List.takeWhile_append_dropWhile (p := fun x => decide (x ≠ d)) (l := c :: l)
  have hhead := List.head?_dropWhile_not (fun x => decide (x ≠ d)) (c :: l)
  generalize (c :: l).dropWhile (· ≠ d) = r at *
  generalize (c :: l).takeWhile (· ≠ d) = w at *
  cases r with
  | nil => rw [← hsplit, List.append_nil, tokens_of_notMem hne hw, tokens_nil]
  | cons x r =>
    have hx : x = d := by simpa using hhead
    rw [← hsplit, hx, tokens_append_sep, tokens_of_notMem hne hw, tokens_cons_sep]
    rfl

/-- A scanner finds the tokens. -/
theorem scan_tokens (d : α) : ∀ l : List α, TokenScan d l (tokens d l)
  | [] => by
    rw [tokens_nil]
    exact .none [] (List.forall_mem_nil _)
  | c :: l => by
    by_cases hc : c = d
    · rw [hc, tokens_cons_sep]
      exact (scan_tokens d l).sep
    -- The token that starts here ends at the next separator, if there is one.
    by_cases hd : d ∈ l
    · obtain ⟨w, r, hl, hw⟩ := List.eq_append_cons_of_mem hd
      have hcw : d ∉ c :: w := List.not_mem_cons_of_ne_of_not_mem (Ne.symm hc) hw
      rw [hl, ← List.cons_append, tokens_append_sep, tokens_of_notMem (List.cons_ne_nil c w) hcw, List.singleton_append]
      exact .more [] (c :: w) r _ (List.forall_mem_nil _) (List.cons_ne_nil c w) hcw (scan_tokens d r)
    · have hcl : d ∉ c :: l := List.not_mem_cons_of_ne_of_not_mem (Ne.symm hc) hd
      rw [tokens_of_notMem (List.cons_ne_nil c l) hcl]
      exact .last [] (c :: l) (List.forall_mem_nil _) (List.cons_ne_nil c l) hcl
termination_by l => l.length
decreasing_by
  · simp
  · simp [hl]
    omega

theorem tokens_concat_sep (l : List α) : tokens d (l ++ [d]) = tokens d l := by
  rw [tokens_append_sep, tokens_nil, List.append_nil]

/-- An element behind a token makes it longer. -/
theorem tokens_concat {l : List α} {c : α} (hc : c ≠ d) (hl : l ≠ []) (hlast : l.getLast hl ≠ d) :
    ∃ ts w, tokens d l = ts ++ [w] ∧ tokens d (l ++ [c]) = ts ++ [w ++ [c]] := by
  by_cases hd : d ∈ l
  · -- Behind the last separator there is the last token.
    obtain ⟨w, x, hx, hw⟩ := List.eq_append_cons_of_mem (List.mem_reverse.mpr hd)
    have hsplit : l = x.reverse ++ d :: w.reverse := by
      rw [← List.reverse_reverse l, hx]
      simp
    have hw' : d ∉ w.reverse := fun h => hw (List.mem_reverse.mp h)
    have hne : w.reverse ≠ [] := by
      intro h
      refine hlast ?_
      simp [hsplit, h]
    refine ⟨tokens d x.reverse, w.reverse, ?_, ?_⟩
    · rw [hsplit, tokens_append_sep, tokens_of_notMem hne hw']
    · rw [hsplit, List.append_assoc, List.cons_append, tokens_append_sep,
        tokens_of_notMem (List.append_ne_nil_of_left_ne_nil hne _) (by simp [hw, Ne.symm hc])]
  · exact ⟨[], l, tokens_of_notMem hl hd,
      tokens_of_notMem (List.append_ne_nil_of_left_ne_nil hl _) (by simp [hd, Ne.symm hc])⟩

/-- The tokens have all elements but the separators. -/
theorem TokenScan.flatten_eq {l : List α} {ts : List (List α)} (h : TokenScan d l ts) : ts.flatten = l.filter (· ≠ d) := by
  have hnone : ∀ u : List α, (∀ c ∈ u, c = d) → u.filter (· ≠ d) = [] := fun u hu => by
    simpa [List.filter_eq_nil_iff] using hu
  have hall : ∀ w : List α, d ∉ w → w.filter (· ≠ d) = w := fun w hw => by
    simpa [List.filter_eq_self] using fun c hc (h : c = d) => hw (h ▸ hc)
  induction h with
  | none u hu => rw [hnone u hu, List.flatten_nil]
  | last u w hu _ hw => rw [List.filter_append, hnone u hu, hall w hw, List.flatten_singleton, List.nil_append]
  | more u w r ts hu _ hw _ ih =>
    rw [List.filter_append, hnone u hu, List.filter_append, hall w hw, List.nil_append, List.flatten_cons, ih]
    simp

end Decidable

/-! ## Counting -/

section Counting

variable [DecidableEq α]

/-- How many elements of `l`, which comes behind `c`, are no separator and stand right
    behind one. -/
def startsAfter (d c : α) (l : List α) : Nat := ((c :: l).zip l).countP fun x => x.1 = d ∧ x.2 ≠ d

/-- How many elements are no separator and stand first or right behind a separator. -/
def starts (d : α) (l : List α) : Nat := startsAfter d d l

theorem startsAfter_sep (c : α) (l : List α) : startsAfter d c (d :: l) = starts d l := by
  simp [starts, startsAfter]

theorem startsAfter_cons {c : α} (hc : c ≠ d) (x : α) (l : List α) :
    startsAfter d c (x :: l) = startsAfter d x l := by
  simp [startsAfter, hc]

theorem starts_cons {c : α} (hc : c ≠ d) (l : List α) : starts d (c :: l) = startsAfter d c l + 1 := by
  simp [starts, startsAfter, hc]

theorem startsAfter_append {w : List α} (hw : d ∉ w) {c : α} (hc : c ≠ d) (r : List α) :
    startsAfter d c (w ++ d :: r) = starts d r := by
  induction w generalizing c with
  | nil => rw [List.nil_append, startsAfter_sep]
  | cons x w ih =>
    rw [List.cons_append, startsAfter_cons hc]
    exact ih (fun h => hw (List.mem_cons_of_mem x h)) fun h => hw (h ▸ List.mem_cons_self)

theorem startsAfter_of_notMem {w : List α} (hw : d ∉ w) {c : α} (hc : c ≠ d) : startsAfter d c w = 0 := by
  induction w generalizing c with
  | nil => rfl
  | cons x w ih =>
    rw [startsAfter_cons hc]
    exact ih (fun h => hw (List.mem_cons_of_mem x h)) fun h => hw (h ▸ List.mem_cons_self)

theorem starts_skip {u : List α} (hu : ∀ c ∈ u, c = d) (l : List α) : starts d (u ++ l) = starts d l := by
  induction u with
  | nil => rfl
  | cons c u ih =>
    rw [hu c List.mem_cons_self, List.cons_append, starts, startsAfter_sep]
    exact ih fun x hx => hu x (List.mem_cons_of_mem c hx)

/-- A token starts at each of these elements. -/
theorem TokenScan.length_eq {l : List α} {ts : List (List α)} (h : TokenScan d l ts) : ts.length = starts d l := by
  induction h with
  | none u hu =>
    rw [← List.append_nil u, starts_skip hu]
    rfl
  | last u w hu hne hw =>
    obtain ⟨c, w, rfl⟩ := List.exists_cons_of_ne_nil hne
    have hc : c ≠ d := fun h => hw (h ▸ List.mem_cons_self)
    rw [starts_skip hu, starts_cons hc, startsAfter_of_notMem (fun h => hw (List.mem_cons_of_mem c h)) hc]
    rfl
  | more u w r ts hu hne hw _ ih =>
    obtain ⟨c, w, rfl⟩ := List.exists_cons_of_ne_nil hne
    have hc : c ≠ d := fun h => hw (h ▸ List.mem_cons_self)
    rw [starts_skip hu, List.cons_append, starts_cons hc,
      startsAfter_append (fun h => hw (List.mem_cons_of_mem c h)) hc, List.length_cons, ih]

theorem length_tokens (d : α) (l : List α) : (tokens d l).length = starts d l := (scan_tokens d l).length_eq

end Counting

end Tokens
