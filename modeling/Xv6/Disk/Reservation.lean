-- SUMMARY: Space in the log: how many blocks a group of operations may change before `log_write` panics.
import Xv6.Disk.Journal
import Mathlib.Algebra.Group.Action.Defs
import Mathlib.Algebra.Order.BigOperators.Group.Finset
import Mathlib.Data.Finset.Option
import Mathlib.Data.Finset.Union

/-! # Log space

`begin_op` reserves `MAXOPBLOCKS` blocks out of `LOGSIZE` for each operation. The log region
that `mkfs` makes has `LOGSIZE` blocks too, but the first one is the header, and `log_write`
panics once `LOGSIZE - 1` blocks are logged, also when the block it gets is logged already.
Three operations that use what was reserved for them do not fit.
-/

namespace Xv6.Journal

/-- After the call of `log_write` its operation has not passed more than `k` blocks. -/
def Within (k : Nat) (s : State) : Label → Prop
  | .logWrite p b _ => ∀ o ∈ s.op p, b ∈ o.blocks ∨ o.blocks.length < k
  | _ => True

instance (k : Nat) (s : State) : (l : Label) → Decidable (Within k s l)
  | .logWrite p b _ => inferInstanceAs (Decidable (∀ o ∈ s.op p, b ∈ o.blocks ∨ o.blocks.length < k))
  | .beginOp _ | .absorb _ | .endOp _ | .commit | .read _ | .evict _ | .crash | .boot => isTrue trivial

/-- A disk block of the log, its header among them. -/
def InRegion (start b : Nat) : Prop := start ≤ b ∧ b < start + LOGSIZE

/-- A commit writes to the log region, if the log fits there, and to the blocks that are logged. -/
theorem State.Step.commit_writes {start b : Nat} {s t : State} (h : s.Step start .commit t)
    (hlength : s.lh.length ≤ LOGSIZE - 1) (hne : t.disk b ≠ s.disk b) : InRegion start b ∨ b ∈ s.lh := by
  have hupdate : ∀ {d : Disk} {x : Nat} {c : Bytes}, Function.update d x c b ≠ d b → b = x := fun hne => by
    by_contra hx
    exact hne (Function.update_of_ne hx ..)
  cases h with
  | @copy tail hpc hlt =>
    have hb := hupdate hne
    left
    unfold InRegion
    omega
  | nothing hpc hlh => exact absurd rfl hne
  | head hpc hge =>
    have hb := hupdate hne
    left
    exact hb ▸ ⟨le_rfl, Nat.lt_add_of_pos_right (by decide)⟩
  | install hpc hlt => exact .inr (hupdate hne ▸ List.getElem_mem hlt)
  | erase hpc hge =>
    have hb := hupdate hne
    left
    exact hb ▸ ⟨le_rfl, Nat.lt_add_of_pos_right (by decide)⟩

/-! ## Operations that leave one block of their reservation -/

/-- How many blocks an operation may still add to `lh`. -/
def left (lh : List Nat) (o : Option Op) : Nat :=
  o.elim 0 fun o => MAXOPBLOCKS - 1 - (o.blocks.toFinset ∩ lh.toFinset).card

/-- The operation has passed the block that it waits to log, and not too many. -/
structure Op.Counted (o : Op) : Prop where
  length : o.blocks.length ≤ MAXOPBLOCKS - 1
  logging : ∀ b, o.logging = some b → b ∈ o.blocks

/-- The log has room for all that operations may still add to it. -/
structure Thrifty (s : State) (active : Finset Nat) : Prop where
  ops : ∀ {p o}, s.op p = some o → o.Counted
  idle : active = ∅ → s.commit = none → s.lh = []
  budget : s.lh.length + ∑ p ∈ active, left s.lh (s.op p) < LOGSIZE - 1

theorem left_le (lh : List Nat) (o : Option Op) : left lh o ≤ MAXOPBLOCKS - 1 := by
  cases o with
  | none => exact Nat.zero_le _
  | some o => exact Nat.sub_le _ _

theorem left_some_le {lh lh' bs bs' : List Nat} {b b' : Option Nat} (hbs : bs ⊆ bs') (hlh : lh ⊆ lh') :
    left lh' (some ⟨bs', b'⟩) ≤ left lh (some ⟨bs, b⟩) := by
  refine Nat.sub_le_sub_left (Finset.card_le_card fun x hx => ?_) _
  rw [Finset.mem_inter, List.mem_toFinset, List.mem_toFinset] at hx ⊢
  exact ⟨hbs hx.1, hlh hx.2⟩

/-- When one operation goes on, the others may add no more than before. -/
theorem left_update_le {lh lh' : List Nat} {op : Nat → Option Op} {p : Nat} {o : Option Op} (hlh : lh ⊆ lh')
    (hle : left lh' o ≤ left lh (op p)) (q : Nat) : left lh' (Function.update op p o q) ≤ left lh (op q) := by
  by_cases hq : q = p
  · rw [hq, Function.update_self]
    exact hle
  · rw [Function.update_of_ne hq]
    cases op q with
    | none => exact le_rfl
    | some x => exact left_some_le (List.Subset.refl _) hlh

namespace Thrifty

variable {start : Nat} {s t : State} {active : Finset Nat} {l : Label} {p b : Nat} {bs : List Nat}

theorem init (disk : Disk) (committed : List (List Update)) (returned : Nat) :
    Thrifty (.init disk committed returned) ∅ :=
  ⟨fun hop => absurd hop.symm (Option.some_ne_none _), fun _ _ => rfl, (by decide : 0 < LOGSIZE - 1)⟩

theorem ops_update (h : Thrifty s active) {o : Option Op} (ho : ∀ x, o = some x → x.Counted) {q : Nat} {x : Op}
    (hq : Function.update s.op p o q = some x) : x.Counted :=
  (op_of_update hq).elim (ho x) h.ops

theorem beginOp (h : Thrifty s active) (hb : s.Brackets active) (hop : s.op p = none) (hcommit : s.commit = none)
    (hroom : s.lh.length + (s.outstanding + 1) * MAXOPBLOCKS ≤ LOGSIZE) (op : Nat → Option Op) :
    s.lh.length + ∑ q ∈ insert p active, left s.lh (op q) < LOGSIZE - 1 := by
  have hnew : p ∉ active := fun hp => by rw [hb.mem, hop] at hp; cases hp
  have hsum := Finset.sum_le_card_nsmul (insert p active) (fun q => left s.lh (op q)) _ fun q _ => left_le _ _
  rw [Finset.card_insert_of_notMem hnew, ← hb.count, smul_eq_mul] at hsum
  refine (Nat.add_le_add_left hsum _).trans_lt ?_
  -- the first operation finds the log empty, and a later one leaves a block for each
  rcases Finset.eq_empty_or_nonempty active with hempty | hsome
  · rw [h.idle hempty hcommit, hb.count, hempty]
    decide
  · have hout : 0 < s.outstanding := hb.count ▸ Finset.card_pos.mpr hsome
    simp only [LOGSIZE, MAXOPBLOCKS] at hroom ⊢
    omega

/-- A block that was not logged was one that the operation could still add. -/
theorem absorb (h : Thrifty s active) (hp : p ∈ active) (hop : s.op p = some ⟨bs, some b⟩) {lh : List Nat}
    (hlh : lh = if b ∈ s.lh then s.lh else s.lh ++ [b]) :
    lh.length + ∑ q ∈ active, left lh (Function.update s.op p (some ⟨bs, none⟩) q) < LOGSIZE - 1 := by
  have hle : ∀ {lh'}, s.lh ⊆ lh' → left lh' (some ⟨bs, none⟩) ≤ left s.lh (s.op p) := fun hsub =>
    hop ▸ left_some_le (List.Subset.refl bs) hsub
  refine lt_of_le_of_lt ?_ h.budget
  split at hlh
  · rw [hlh]
    have hsub := List.Subset.refl s.lh
    exact Nat.add_le_add_left (Finset.sum_le_sum fun q _ => left_update_le hsub (hle hsub) q) _
  · next hmem =>
    have hsub : s.lh ⊆ lh := hlh ▸ List.subset_append_left _ _
    have hbs : b ∈ bs := (h.ops hop).logging b rfl
    have hcard : (bs.toFinset ∩ s.lh.toFinset).card < (bs.toFinset ∩ lh.toFinset).card := by
      refine Finset.card_lt_card (Finset.ssubset_iff_of_subset ?_ |>.mpr ⟨b, ?_, ?_⟩)
      · exact Finset.inter_subset_inter_left fun x hx => List.mem_toFinset.mpr (hsub (List.mem_toFinset.mp hx))
      · simp [hlh, hbs]
      · simp [hmem]
    have hmax : (bs.toFinset ∩ lh.toFinset).card ≤ MAXOPBLOCKS - 1 :=
      (Finset.card_le_card Finset.inter_subset_left).trans (bs.toFinset_card_le.trans (h.ops hop).length)
    have hlt : left lh (Function.update s.op p (some ⟨bs, none⟩) p) < left s.lh (s.op p) := by
      rw [Function.update_self, hop]
      exact Nat.sub_lt_sub_left (hcard.trans_le hmax) hcard
    have hsum := Finset.sum_lt_sum (fun q _ => left_update_le hsub (hle hsub) q) ⟨p, hp, hlt⟩
    rw [hlh, List.length_append, List.length_singleton, ← hlh]
    omega

theorem step (h : Thrifty s active) (hb : s.Brackets active) (hok : Within (MAXOPBLOCKS - 1) s l)
    (hstep : s.Step start l t) : Thrifty t (l.active active) := by
  have hb' := hb.step hstep
  have hsub := List.Subset.refl s.lh
  cases hstep with
  | beginOp hop hcommit hroom =>
    refine ⟨h.ops_update ?_, fun hempty => absurd hempty (Finset.insert_ne_empty _ _), h.beginOp hb hop hcommit hroom _⟩
    rintro _ ⟨⟩
    exact ⟨Nat.zero_le _, nofun⟩
  | @logWrite p b c bs hop hfree hroom =>
    refine ⟨h.ops_update ?_, h.idle, ?_⟩
    · rintro _ ⟨⟩
      by_cases hmem : b ∈ bs
      · rw [if_pos hmem]
        exact ⟨(h.ops hop).length, fun x hx => Option.some.inj hx ▸ hmem⟩
      · rw [if_neg hmem]
        exact ⟨(hok _ hop).resolve_left hmem, fun x hx => Option.some.inj hx ▸ List.mem_cons_self⟩
    · refine lt_of_le_of_lt (Nat.add_le_add_left (Finset.sum_le_sum fun q _ => ?_) _) h.budget
      refine left_update_le hsub (hop ▸ left_some_le ?_ hsub) q
      split
      · exact List.Subset.refl bs
      · exact List.subset_cons_self b bs
  | absorb hop =>
    refine ⟨h.ops_update ?_, fun hempty => absurd hempty (Finset.ne_empty_of_mem (hb.active_of_op hop)),
      h.absorb (hb.active_of_op hop) hop rfl⟩
    rintro _ ⟨⟩
    exact ⟨(h.ops hop).length, nofun⟩
  | @endOp p bs hop =>
    refine ⟨h.ops_update fun _ => (absurd · (Option.some_ne_none _).symm), fun hempty hcommit => ?_, ?_⟩
    · have hout : s.outstanding - 1 = 0 := hb'.count.trans (hempty ▸ Finset.card_empty)
      rw [if_pos hout] at hcommit
      cases hcommit
    · refine lt_of_le_of_lt (Nat.add_le_add_left ?_ _) h.budget
      refine (Finset.sum_le_sum_of_subset (Finset.erase_subset p active)).trans (Finset.sum_le_sum fun q _ => ?_)
      exact left_update_le hsub (Nat.zero_le _) q
  | nothing hpc hlh => exact ⟨h.ops, fun _ _ => hlh, h.budget⟩
  | erase hpc hge =>
    refine ⟨h.ops, fun _ _ => rfl, ?_⟩
    rw [hb.quiet (hpc ▸ Option.some_ne_none _)]
    exact (by decide : 0 < LOGSIZE - 1)
  | copy hpc hlt | head hpc hge | install hpc hlt => exact ⟨h.ops, fun _ => nofun, h.budget⟩
  | read => exact ⟨h.ops, h.idle, h.budget⟩
  | evict hclean hfree => exact ⟨h.ops, h.idle, h.budget⟩

end Thrifty

/-- If each operation passes `MAXOPBLOCKS - 1` blocks at most, the log always has room. -/
theorem Run.room {start : Nat} {disk : Disk} {committed : List (List Update)} {returned : Nat} {s : State}
    (h : Run (State.next start) (Within (MAXOPBLOCKS - 1)) (.init disk committed returned) s) :
    s.lh.length < LOGSIZE - 1 := by
  have hthrifty : ∃ active, s.Brackets active ∧ Thrifty s active := by
    induction h with
    | refl => exact ⟨∅, .init .., .init ..⟩
    | step _ l hok hstep ih =>
      obtain ⟨active, hb, hthrifty⟩ := ih
      have hstep := State.step_of_next hstep
      exact ⟨_, hb.step hstep, hthrifty.step hb hok hstep⟩
  obtain ⟨active, -, hthrifty⟩ := hthrifty
  exact (Nat.le_add_right _ _).trans_lt hthrifty.budget

/-- If each operation passes `MAXOPBLOCKS - 1` blocks at most, no call of `log_write` panics, the
    log region holds what is logged besides its header, and a commit writes nowhere else. -/
theorem log_space_suffices (start : Nat) (disk : Disk) (committed : List (List Update)) (returned : Nat) (s : State)
    (h : Run (State.next start) (Within (MAXOPBLOCKS - 1)) (.init disk committed returned) s) :
    ¬ s.tooBig ∧ s.lh.length ≤ LOGSIZE - 1 ∧
    ∀ t b, s.next start .commit = some t → t.disk b ≠ s.disk b → InRegion start b ∨ b ∈ s.lh := by
  have hroom := h.room
  refine ⟨?_, hroom.le, fun t b hstep hne => (State.step_of_next hstep).commit_writes hroom.le hne⟩
  rintro (hge | hge)
  · exact absurd hge (Nat.not_le.mpr (hroom.trans_le (Nat.sub_le _ _)))
  · exact absurd hge (Nat.not_le.mpr hroom)

/-! ## Three operations at once -/

/-- `log_write` of `n` blocks, one after the other. -/
def logBlocks (p first n : Nat) : List Label :=
  (List.range n).flatMap fun i => [.logWrite p (first + i) fun _ => 1, .absorb p]

/-- Two operations log `n` blocks each, the third one `k`. -/
def threeOps (n k : Nat) : List Label :=
  [.beginOp 0, .beginOp 1, .beginOp 2] ++ logBlocks 0 1000 n ++ logBlocks 1 2000 n ++ logBlocks 2 3000 k

/-- All three leave one block of their reservation, and the commit has copied five blocks. -/
theorem log_space_suffices_threeOps : ∃ s, Run (State.next 2) (Within (MAXOPBLOCKS - 1)) (.init (fun _ => .zero) [] 0) s ∧
    s.lh.length = 27 ∧ s.disk 7 0 = 1 ∧ ¬ s.tooBig ∧ s.lh.length ≤ LOGSIZE - 1 ∧
    ∀ t b, s.next 2 .commit = some t → t.disk b ≠ s.disk b → InRegion 2 b ∨ b ∈ s.lh := by
  have hplay : (play (State.next 2) (Within (MAXOPBLOCKS - 1)) (.init (fun _ => .zero) [] 0)
      (threeOps 9 9 ++ [.endOp 0, .endOp 1, .endOp 2] ++ List.replicate 5 .commit)).any
      (fun s => s.lh.length = 27 ∧ s.disk 7 0 = 1) = true := by
    decide +kernel
  obtain ⟨s, hs, hstate⟩ := (Option.any_eq_true _ _).mp hplay
  obtain ⟨hlength, hdisk⟩ := of_decide_eq_true hstate
  have hrun := Run.of_play .refl hs
  exact ⟨s, hrun, hlength, hdisk, log_space_suffices 2 _ [] 0 s hrun⟩

/-- Within what was reserved for it, the third operation panics. -/
theorem reservation_overflows :
    ∃ s o, Run (State.next 2) (Within MAXOPBLOCKS) (.init (fun _ => .zero) [] 0) s ∧ s.op 2 = some o ∧
      o.blocks.length < MAXOPBLOCKS ∧ s.tooBig := by
  have hplay : (play (State.next 2) (Within MAXOPBLOCKS) (.init (fun _ => .zero) [] 0) (threeOps 10 9)).any (fun s =>
      (s.op 2).any (fun o => o.blocks.length < MAXOPBLOCKS) ∧ s.tooBig) = true := by
    decide +kernel
  obtain ⟨s, hs, hstop⟩ := (Option.any_eq_true _ _).mp hplay
  obtain ⟨hop, hbig⟩ := of_decide_eq_true hstop
  obtain ⟨o, ho, hlength⟩ := (Option.any_eq_true _ _).mp hop
  exact ⟨s, o, Run.of_play .refl hs, ho, of_decide_eq_true hlength, hbig⟩

end Xv6.Journal
