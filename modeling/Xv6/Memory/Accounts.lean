-- SUMMARY: Where each frame is: on the free list, in hand, or in a place of a page directory.
import Mathlib.Algebra.BigOperators.Fin
import Mathlib.Algebra.Order.BigOperators.Group.Multiset
import Xv6.Base.Ledger
import Xv6.Memory.Paging

/-! # Accounts of frames

The functions on page directories move frames between the free list and the places of a
directory: its own frame, the page tables, and the pages below `KERNBASE`. `Accounts` is
the balance of these moves. What is not on the free list nor in the directory is in hand,
and what is in hand when a function returns is lost.
-/

namespace Xv6.Paging

open Prog

/-! ## Entries -/

theorem Pte.not_present_zero : ¬ Pte.zero.Present := by decide

/-- `mappages` sets `PTE_P`. -/
theorem Pte.present_or (f : Frame) (perm : Flags) : (⟨f, perm ||| PTE_P⟩ : Pte).Present := by
  have h : ∀ x : Flags, (x ||| PTE_P) &&& PTE_P ≠ 0 := by decide +kernel
  exact h perm

/-- The flags of a page that is present have `PTE_P` already. -/
theorem Pte.Present.or {e : Pte} (h : e.Present) : e.flags ||| PTE_P = e.flags := by
  have hall : ∀ x : Flags, x &&& PTE_P ≠ 0 → x ||| PTE_P = x := by decide +kernel
  exact hall e.flags h

namespace Dir

variable {d : Dir} {p q i : Nat} {e : Pte} {f : Frame}

theorem page_eq_iff : q = p ↔ q / NPTENTRIES = p / NPTENTRIES ∧ q % NPTENTRIES = p % NPTENTRIES := by
  unfold NPTENTRIES
  omega

theorem tableAt_eq_none : d.tableAt i = none ↔ d.pde i = none := Option.map_eq_none_iff

theorem pte_of_none (h : d.tableAt (p / NPTENTRIES) = none) : d.pte p = .zero := by
  unfold pte
  rw [tableAt_eq_none.mp h]

theorem exists_table_of_present (h : (d.pte p).Present) :
    ∃ t, d.pde (p / NPTENTRIES) = some t ∧ t.pte (p % NPTENTRIES) = d.pte p := by
  unfold pte at h ⊢
  cases hpde : d.pde (p / NPTENTRIES) with
  | none =>
    rw [hpde] at h
    exact absurd h Pte.not_present_zero
  | some t => exact ⟨t, rfl, rfl⟩

theorem setPte_frame : (d.setPte p e).frame = d.frame := by
  unfold setPte
  split <;> rfl

theorem tableAt_setPte : (d.setPte p e).tableAt i = d.tableAt i := by
  unfold setPte tableAt
  split
  · rfl
  · next t h =>
    by_cases hi : i = p / NPTENTRIES
    · rw [hi, h]
      dsimp only
      rw [Function.update_self]
      rfl
    · dsimp only
      rw [Function.update_of_ne hi]

theorem pte_setPte (h : d.tableAt (p / NPTENTRIES) ≠ none) : (d.setPte p e).pte q = if q = p then e else d.pte q := by
  obtain ⟨t, ht⟩ := Option.ne_none_iff_exists'.mp (mt tableAt_eq_none.mpr h)
  unfold setPte pte
  simp only [ht]
  by_cases hdir : q / NPTENTRIES = p / NPTENTRIES
  · rw [hdir, Function.update_self, ht]
    dsimp only
    by_cases htab : q % NPTENTRIES = p % NPTENTRIES
    · rw [if_pos (page_eq_iff.mpr ⟨hdir, htab⟩), htab, Function.update_self]
    · rw [if_neg fun h => htab (page_eq_iff.mp h).2, Function.update_of_ne htab]
  · rw [Function.update_of_ne hdir, if_neg fun h => hdir (page_eq_iff.mp h).1]

theorem tableAt_addTable : (d.addTable p f).tableAt i = if i = p / NPTENTRIES then some f else d.tableAt i := by
  unfold addTable tableAt
  dsimp only
  split
  · next h => rw [h, Function.update_self]; rfl
  · next h => rw [Function.update_of_ne h]

/-- In a new page table no page is present, as before. -/
theorem pte_addTable (h : d.tableAt (p / NPTENTRIES) = none) : (d.addTable p f).pte q = d.pte q := by
  by_cases hdir : q / NPTENTRIES = p / NPTENTRIES
  · have hzero : d.pte q = .zero := pte_of_none (hdir ▸ h)
    rw [hzero]
    unfold pte addTable
    dsimp only
    rw [hdir, Function.update_self]
  · unfold pte addTable
    dsimp only
    rw [Function.update_of_ne hdir]

end Dir

/-! ## Places -/

/-- The number of pages below `KERNBASE`. -/
@[irreducible] def userPages : Nat := KERNBASE / PGSIZE

theorem userPages_eq : userPages = 524288 := by
  unfold userPages
  rfl

/-- The places of a page directory: itself, its page tables, and the pages of the user. -/
abbrev Place := Unit ⊕ Fin NPDENTRIES ⊕ Fin userPages

/-- The frame that an entry has. -/
def Pte.held (e : Pte) : Multiset Frame := if e.Present then {e.frame} else 0

/-- The frames in each place. -/
def Dir.held (d : Dir) : Place → Multiset Frame
  | .inl _ => {d.frame}
  | .inr (.inl i) => ((d.tableAt i).toList : Multiset Frame)
  | .inr (.inr p) => (d.pte p).held

/-- The frames of `total` are in hand, on the free list, or in `d`. -/
def Accounts (total inHand : Multiset Frame) (m : Mem) (d : Dir) : Prop :=
  Balanced (inHand + (m.free : Multiset Frame)) d.held total

/-- The frame of a page of the user belongs to the directory; those of the kernel do not. -/
def owned (p : Nat) (f : Frame) : Multiset Frame := if p < userPages then {f} else 0

namespace Accounts

variable {total inHand : Multiset Frame} {m : Mem} {d d' : Dir} {p : Nat} {f : Frame}

theorem congr {inHand' : Multiset Frame} {m' : Mem} (h : Accounts total inHand m d)
    (hpot : inHand' + (m'.free : Multiset Frame) = inHand + (m.free : Multiset Frame)) :
    Accounts total inHand' m' d := Balanced.congr h hpot fun _ => rfl

/-- What is in hand is accounted for. -/
theorem mem_of_inHand (h : Accounts total inHand m d) (hf : f ∈ inHand) : f ∈ total :=
  Balanced.mem_of_pot h (Multiset.mem_add.mpr (.inl hf))

theorem mem_of_free (h : Accounts total inHand m d) (hf : f ∈ m.free) : f ∈ total :=
  Balanced.mem_of_pot h (Multiset.mem_add.mpr (.inr (Multiset.mem_coe.mpr hf)))

theorem mem_of_pte (h : Accounts total inHand m d) (hp : p < userPages) (he : (d.pte p).Present) :
    (d.pte p).frame ∈ total := by
  refine @Balanced.mem_of_held _ _ _ _ _ _ _ h (.inr (.inr ⟨p, hp⟩)) ?_
  change _ ∈ (d.pte p).held
  unfold Pte.held
  rw [if_pos he]
  exact Multiset.mem_singleton_self _

/-- A frame from the free list becomes a page table. -/
theorem addTable (h : Accounts total inHand m d) (hp : p / NPTENTRIES < NPDENTRIES)
    (hnone : d.tableAt (p / NPTENTRIES) = none) {rest : List Frame} (hfree : m.free = f :: rest) :
    Accounts total inHand { m with free := rest } (d.addTable p f) := by
  refine Balanced.move h (.inr (.inl ⟨p / NPTENTRIES, hp⟩)) (fun a ha => ?_) ?_
  · cases a with
    | inl _ => rfl
    | inr a => cases a with
      | inl i =>
        have hi : (i : Nat) ≠ p / NPTENTRIES := fun heq => ha (congrArg (fun j => Sum.inr (Sum.inl j)) (Fin.ext heq))
        change ((d.addTable p f).tableAt i).toList = (_ : Multiset Frame)
        rw [Dir.tableAt_addTable, if_neg hi]
        rfl
      | inr q =>
        change ((d.addTable p f).pte q).held = _
        rw [Dir.pte_addTable hnone]
        rfl
  · change inHand + (rest : Multiset Frame) + (((d.addTable p f).tableAt (p / NPTENTRIES)).toList : Multiset Frame) =
      inHand + (m.free : Multiset Frame) + ((d.tableAt (p / NPTENTRIES)).toList : Multiset Frame)
    rw [Dir.tableAt_addTable, if_pos rfl, hnone, hfree, ← Multiset.cons_coe, ← Multiset.singleton_add]
    change _ + ({f} : Multiset Frame) = _ + 0
    abel

/-- An entry changes. What it has had is in hand now, and what it gets was. -/
theorem setPte {inHand' : Multiset Frame} {e : Pte} (h : Accounts total inHand m d)
    (hsome : d.tableAt (p / NPTENTRIES) ≠ none)
    (hmove : p < userPages → inHand' + e.held = inHand + (d.pte p).held) (hkernel : ¬ p < userPages → inHand' = inHand) :
    Accounts total inHand' m (d.setPte p e) := by
  have hother : ∀ a, (∀ hp : p < userPages, a ≠ .inr (.inr ⟨p, hp⟩)) → (d.setPte p e).held a = d.held a := by
    intro a ha
    cases a with
    | inl _ => exact congrArg (fun g : Frame => ({g} : Multiset Frame)) Dir.setPte_frame
    | inr a => cases a with
      | inl i => exact congrArg (fun o : Option Frame => (o.toList : Multiset Frame)) Dir.tableAt_setPte
      | inr q =>
        have hq : (q : Nat) ≠ p := fun heq =>
          ha (heq ▸ q.isLt) (congrArg (fun j => Sum.inr (Sum.inr j)) (Fin.ext heq))
        change ((d.setPte p e).pte q).held = _
        rw [Dir.pte_setPte hsome, if_neg hq]
        rfl
  by_cases hp : p < userPages
  · refine Balanced.move h (.inr (.inr ⟨p, hp⟩)) (fun a ha => hother a fun _ => ha) ?_
    change inHand' + (m.free : Multiset Frame) + ((d.setPte p e).pte p).held =
      inHand + (m.free : Multiset Frame) + (d.pte p).held
    rw [Dir.pte_setPte hsome, if_pos rfl, add_right_comm, hmove hp, add_right_comm]
  · refine Balanced.congr h (by rw [hkernel hp]) fun a => hother a fun hp' => absurd hp' hp

end Accounts

/-! ## Counting -/

/-- The number of page tables. -/
def Dir.tables (d : Dir) : Nat := (Finset.univ.filter fun i : Fin NPDENTRIES => d.tableAt i ≠ none).card

/-- The number of pages of the user that are present. -/
def Dir.pages (d : Dir) : Nat := (Finset.univ.filter fun p : Fin userPages => (d.pte p).Present).card

theorem Accounts.card {total inHand : Multiset Frame} {m : Mem} {d : Dir} (h : Accounts total inHand m d) :
    total.card = inHand.card + m.free.length + 1 + d.tables + d.pages := by
  have hcard := Balanced.map h Multiset.cardHom
  unfold Balanced at hcard
  have htables : ∑ i : Fin NPDENTRIES, Multiset.cardHom (d.held (.inr (.inl i))) = d.tables := by
    unfold Dir.tables
    rw [Finset.card_filter]
    refine Finset.sum_congr rfl fun i _ => ?_
    change ((d.tableAt i).toList : Multiset Frame).card = _
    cases d.tableAt i <;> rfl
  have hpages : ∑ p : Fin userPages, Multiset.cardHom (d.held (.inr (.inr p))) = d.pages := by
    unfold Dir.pages
    rw [Finset.card_filter]
    refine Finset.sum_congr rfl fun p _ => ?_
    change ((d.pte p).held).card = _
    unfold Pte.held
    split <;> rfl
  rw [Fintype.sum_sum_type, Fintype.sum_sum_type, htables, hpages] at hcard
  change (inHand + (m.free : Multiset Frame)).card + (∑ _x : Unit, 1 + (d.tables + d.pages)) = total.card at hcard
  rw [Multiset.card_add, Multiset.coe_card, Finset.sum_const, Finset.card_univ, Fintype.card_unit, one_smul] at hcard
  omega

/-- The numbers below `n`. -/
theorem card_filter_val_lt {N n : Nat} (h : n ≤ N) : (Finset.univ.filter fun p : Fin N => (p : Nat) < n).card = n := by
  rw [Finset.card_filter, Fin.sum_univ_eq_sum_range (fun p => if p < n then 1 else 0) N, ← Finset.card_filter]
  have hrange : (Finset.range N).filter (· < n) = Finset.range n := by
    ext p
    simp only [Finset.mem_filter, Finset.mem_range]
    omega
  rw [hrange, Finset.card_range]

theorem sum_fin_eq_sum_range {M : Type} [AddCommMonoid M] (g : Nat → M) (N : Nat) :
    ∑ i : Fin N, g i = ((List.range N).map g).sum := by
  rw [Fin.sum_univ_eq_sum_range g N]
  rfl

theorem Dir.pages_eq {d : Dir} {n : Nat} (hn : n ≤ userPages) (h : ∀ p < userPages, (d.pte p).Present ↔ p < n) :
    d.pages = n := by
  unfold Dir.pages
  rw [← card_filter_val_lt hn]
  congr 1
  refine Finset.filter_congr fun p _ => ?_
  exact h p p.isLt

end Xv6.Paging
