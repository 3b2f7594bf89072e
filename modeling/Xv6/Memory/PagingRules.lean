-- SUMMARY: What the functions on page directories do, and where the frames are afterwards.
import Xv6.Memory.Accounts

/-! # Rules for paging

One rule for each function. All of them keep the accounts. The frames that are freed come
from the free list, so `kfree` accepts them, and nothing but frames of the accounts is
written to.
-/

namespace Xv6.Paging

open Prog

/-- Pages that are not in the accounts keep their contents. -/
def Untouched (total : Multiset Frame) (m m' : Mem) : Prop := ∀ g, g ∉ total → m'.bytes g = m.bytes g

theorem Untouched.refl (total : Multiset Frame) (m : Mem) : Untouched total m m := fun _ _ => rfl

theorem Untouched.trans {total : Multiset Frame} {m m' m'' : Mem} (h : Untouched total m m')
    (h' : Untouched total m' m'') : Untouched total m m'' := fun g hg => (h' g hg).trans (h g hg)

theorem Untouched.of_bytes {total : Multiset Frame} {m m' : Mem} (h : m'.bytes = m.bytes) : Untouched total m m' :=
  fun _ _ => by rw [h]

section Rules

variable {L : Layout} {m : Mem} {E : Panic → Prop} {total inHand : Multiset Frame} {d : Dir}

/-! ## Frames -/

theorem wp_kalloc {Q : Option Frame → Mem → Prop} : wp kalloc Q E m ↔
    (m.free = [] → Q none m) ∧ ∀ f rest, m.free = f :: rest → Q (some f) { m with free := rest } := by
  simp only [kalloc, wp_bind, wp_get]
  cases m.free with
  | nil => simp
  | cons f rest => simp

theorem wp_kfree {f : Frame} {Q : Unit → Mem → Prop} (hf : L.Valid f) (hQ : Q () (m.give f)) :
    wp (kfree L f) Q E m := by
  unfold kfree
  rw [if_pos hf]
  exact hQ

@[simp] theorem wp_fill {f : Frame} {c : Bytes} {Q : Unit → Mem → Prop} :
    wp (fill f c) Q E m ↔ Q () { m with bytes := Function.update m.bytes f c } := Iff.rfl

theorem untouched_give {f : Frame} (hf : f ∈ total) : Untouched total m (m.give f) := by
  intro g hg
  have hne : g ≠ f := by
    rintro rfl
    exact hg hf
  exact Function.update_of_ne hne _ _

/-- A frame that is in hand goes to the free list. -/
theorem Accounts.give {f : Frame} (h : Accounts total ({f} + inHand) m d) : Accounts total inHand (m.give f) d := by
  refine h.congr ?_
  change inHand + ((f :: m.free : List Frame) : Multiset Frame) = _
  rw [← Multiset.cons_coe, ← Multiset.singleton_add]
  abel

/-- A frame is taken in hand. -/
theorem Accounts.take {f : Frame} {rest : List Frame} (h : Accounts total inHand m d) (hfree : m.free = f :: rest) :
    Accounts total ({f} + inHand) { m with free := rest } d := by
  refine h.congr ?_
  change {f} + inHand + (rest : Multiset Frame) = _
  rw [hfree, ← Multiset.cons_coe, ← Multiset.singleton_add]
  abel

/-- Contents do not matter. -/
theorem Accounts.bytes {c : Frame → Bytes} (h : Accounts total inHand m d) :
    Accounts total inHand { m with bytes := c } d := h

/-! ## Mapping -/

/-- From `d` to `d'` the pages from `p` on, `n` of them, have been mapped to the frames
    from `f` on. -/
structure Mapped (d d' : Dir) (n p : Nat) (f : Frame) (perm : Flags) : Prop where
  frame : d'.frame = d.frame
  table : ∀ i, d'.tableAt i ≠ none ↔ d.tableAt i ≠ none ∨ ∃ q, p ≤ q ∧ q < p + n ∧ q / NPTENTRIES = i
  pte : ∀ q, d'.pte q = if p ≤ q ∧ q < p + n then ⟨f + (q - p), perm ||| PTE_P⟩ else d.pte q

theorem Mapped.refl (d : Dir) (p : Nat) (f : Frame) (perm : Flags) : Mapped d d 0 p f perm := by
  refine ⟨rfl, fun i => ⟨.inl, ?_⟩, fun q => (if_neg (by omega)).symm⟩
  rintro (h | ⟨q, h₁, h₂, -⟩)
  · exact h
  · omega

theorem Mapped.step {d₁ d₂ d₃ : Dir} {n p : Nat} {f : Frame} {perm : Flags} (h : Mapped d₁ d₂ 1 p f perm)
    (h' : Mapped d₂ d₃ n (p + 1) (f + 1) perm) : Mapped d₁ d₃ (n + 1) p f perm := by
  refine ⟨h'.frame.trans h.frame, fun i => ?_, fun q => ?_⟩
  · rw [h'.table i, h.table i]
    constructor
    · rintro ((ht | ⟨q, h₁, h₂, hq⟩) | ⟨q, h₁, h₂, hq⟩)
      · exact .inl ht
      · exact .inr ⟨q, h₁, by omega, hq⟩
      · exact .inr ⟨q, by omega, by omega, hq⟩
    · rintro (ht | ⟨q, h₁, h₂, hq⟩)
      · exact .inl (.inl ht)
      · by_cases hqp : q = p
        · exact .inl (.inr ⟨q, h₁, by omega, hq⟩)
        · exact .inr ⟨q, by omega, by omega, hq⟩
  · rw [h'.pte q, h.pte q]
    by_cases hqp : q = p
    · rw [if_neg (by omega), if_pos (by omega), if_pos (by omega)]
    · by_cases hq : p ≤ q ∧ q < p + (n + 1)
      · have hoff : q - p = q - (p + 1) + 1 := by omega
        rw [if_pos (by omega), if_pos hq, hoff, Nat.add_right_comm f 1, Nat.add_assoc]
      · rw [if_neg (by omega), if_neg (by omega), if_neg hq]

/-- One page is mapped, unless a page table is missing and there is no frame for it. -/
theorem wp_mapPage {p : Nat} {f : Frame} {perm : Flags} {Q : Option Dir → Mem → Prop}
    (h : Accounts total (owned p f + inHand) m d) (hp : p / NPTENTRIES < NPDENTRIES) (habs : ¬ (d.pte p).Present)
    (hfull : d.tableAt (p / NPTENTRIES) = none → m.free = [] → Q none m)
    (hok : ∀ d' m', Mapped d d' 1 p f perm → Accounts total inHand m' d' → m'.bytes = m.bytes → Q (some d') m') :
    wp (mapPage d p f perm) Q E m := by
  -- The entry is set in `d₁`, in which there is a page table.
  have hset : ∀ d₁ m₁, (∀ i, d₁.tableAt i ≠ none ↔ d.tableAt i ≠ none ∨ i = p / NPTENTRIES) → d₁.frame = d.frame →
      (∀ q, d₁.pte q = d.pte q) → Accounts total (owned p f + inHand) m₁ d₁ → m₁.bytes = m.bytes →
      Q (some (d₁.setPte p ⟨f, perm ||| PTE_P⟩)) m₁ := by
    intro d₁ m₁ htable hframe hpte hacc hbytes
    have hsome : d₁.tableAt (p / NPTENTRIES) ≠ none := (htable _).mpr (.inr rfl)
    refine hok _ m₁ ⟨Dir.setPte_frame.trans hframe, fun i => ?_, fun q => ?_⟩ ?_ hbytes
    · rw [Dir.tableAt_setPte, htable i]
      refine or_congr_right ⟨fun hi => ⟨p, le_rfl, by omega, hi.symm⟩, ?_⟩
      rintro ⟨q, h₁, h₂, rfl⟩
      rw [show q = p by omega]
    · rw [Dir.pte_setPte hsome, hpte]
      by_cases hq : q = p
      · rw [if_pos hq, if_pos (by omega), hq, Nat.sub_self, Nat.add_zero]
      · rw [if_neg hq, if_neg (by omega)]
    · refine hacc.setPte hsome (fun hlt => ?_) fun hge => ?_
      · have hnone : (d₁.pte p).held = 0 := by
          unfold Pte.held
          rw [hpte, if_neg habs]
        have hnew : (⟨f, perm ||| PTE_P⟩ : Pte).held = {f} := if_pos (Pte.present_or f perm)
        unfold owned
        rw [hnone, hnew, if_pos hlt]
        abel
      · unfold owned
        rw [if_neg hge, zero_add]
  simp only [mapPage, walkpgdir, wp_bind]
  cases hpde : d.pde (p / NPTENTRIES) with
  | some t =>
    have hsome : d.tableAt (p / NPTENTRIES) ≠ none := mt Dir.tableAt_eq_none.mp (by simp [hpde])
    dsimp only
    rw [wp_pure]
    dsimp only
    rw [if_neg habs, wp_pure]
    refine hset d m (fun i => ⟨.inl, ?_⟩) rfl (fun _ => rfl) h rfl
    rintro (hi | rfl)
    · exact hi
    · exact hsome
  | none =>
    have hnone : d.tableAt (p / NPTENTRIES) = none := Dir.tableAt_eq_none.mpr hpde
    simp only [if_true, wp_bind, wp_kalloc]
    refine ⟨fun hfree => hfull hnone hfree, fun g rest hfree => ?_⟩
    rw [wp_pure]
    dsimp only
    rw [Dir.pte_addTable hnone, if_neg habs]
    refine hset _ _ (fun i => ?_) rfl (fun q => Dir.pte_addTable hnone) (h.addTable hp hnone hfree) rfl
    rw [Dir.tableAt_addTable]
    split
    · next hi => simp [hi]
    · next hi => simp [hi]

/-- A page that is there already is not mapped again. -/
theorem wp_mapPage_present {p : Nat} {f : Frame} {perm : Flags} {Q : Option Dir → Mem → Prop}
    (hpres : (d.pte p).Present) (hE : E .remap) : wp (mapPage d p f perm) Q E m := by
  obtain ⟨t, hpde, -⟩ := Dir.exists_table_of_present hpres
  simp only [mapPage, walkpgdir, hpde, wp_bind, wp_pure, if_pos hpres, wp_throw]
  exact hE

/-- Pages of the kernel are mapped. If this fails it is for a page table that is missing. -/
theorem wp_mapLoop {perm : Flags} : ∀ (n p : Nat) (f : Frame) (d : Dir) (m : Mem), userPages ≤ p →
    p + n ≤ NPDENTRIES * NPTENTRIES → (∀ q, p ≤ q → q < p + n → ¬ (d.pte q).Present) → Accounts total inHand m d →
    wp (mapLoop perm n p f d) (fun r m' => m'.bytes = m.bytes ∧ Accounts total inHand m' r.2 ∧
      ((r.1 = true ∧ Mapped d r.2 n p f perm) ∨
        (r.1 = false ∧ m'.free = [] ∧ ∃ k < n, Mapped d r.2 k p f perm ∧ r.2.tableAt ((p + k) / NPTENTRIES) = none)))
      E m := by
  intro n
  induction n with
  | zero =>
    intro p f d m _ _ _ h
    rw [mapLoop, wp_pure]
    exact ⟨rfl, h, .inl ⟨rfl, .refl d p f perm⟩⟩
  | succ n ih =>
    intro p f d m hkernel hend habs h
    have hzero : owned p f = 0 := if_neg (not_lt.mpr hkernel)
    have hown : Accounts total (owned p f + inHand) m d := by rwa [hzero, zero_add]
    have hp : p / NPTENTRIES < NPDENTRIES := by
      unfold NPTENTRIES NPDENTRIES at hend ⊢
      omega
    rw [mapLoop, wp_bind]
    refine wp_mapPage hown hp (habs p le_rfl (by omega)) (fun hnone hfree => ?_)
      fun d' m' hd hacc hbytes => ?_
    · rw [wp_pure]
      exact ⟨rfl, h, .inr ⟨rfl, hfree, 0, Nat.succ_pos n, .refl d p f perm, hnone⟩⟩
    · have habs' : ∀ q, p + 1 ≤ q → q < p + 1 + n → ¬ (d'.pte q).Present := by
        intro q h₁ h₂
        rw [hd.pte, if_neg (by omega)]
        exact habs q (by omega) (by omega)
      refine (ih (p + 1) (f + 1) d' m' (by omega) (by omega) habs' hacc).post fun r m'' hr => ?_
      refine ⟨hr.1.trans hbytes, hr.2.1, ?_⟩
      rcases hr.2.2 with ⟨hres, hmap⟩ | ⟨hres, hfree, k, hk, hmap, hnone⟩
      · exact .inl ⟨hres, hd.step hmap⟩
      · refine .inr ⟨hres, hfree, k + 1, by omega, hd.step hmap, ?_⟩
        rwa [Nat.add_right_comm] at hnone

/-! ## Shrinking and freeing -/

/-- From `d` to `d'` the pages from `p` up to `n` have been given back. -/
structure Cleared (d d' : Dir) (p n : Nat) : Prop where
  frame : d'.frame = d.frame
  table : ∀ i, d'.tableAt i = d.tableAt i
  gone : ∀ q, p ≤ q → q < n → ¬ (d'.pte q).Present
  pte : ∀ q, ¬ (p ≤ q ∧ q < n) → d'.pte q = d.pte q

theorem wp_freePage {p : Nat} {Q : Dir → Mem → Prop} (hvalid : ∀ f ∈ total, L.Valid f) (hp : p < userPages)
    (hsome : d.tableAt (p / NPTENTRIES) ≠ none) (h : Accounts total inHand m d)
    (hQ : ∀ d' m', Cleared d d' p (p + 1) → Accounts total inHand m' d' → Untouched total m m' → Q d' m') :
    wp (freePage L d p) Q E m := by
  unfold freePage
  split
  · next hpres =>
    have hmem := h.mem_of_pte hp hpres
    have hv := hvalid _ hmem
    have hne : (d.pte p).frame ≠ 0 := (L.kend_pos.trans_le hv.1).ne'
    rw [if_neg hne, wp_bind]
    refine wp_kfree hv ?_
    rw [wp_pure]
    refine hQ _ _ ⟨Dir.setPte_frame, fun i => Dir.tableAt_setPte, fun q h₁ h₂ => ?_, fun q hq => ?_⟩ ?_
      (untouched_give hmem)
    · rw [Dir.pte_setPte hsome, if_pos (by omega)]
      exact Pte.not_present_zero
    · rw [Dir.pte_setPte hsome, if_neg (by omega)]
    · have hhand : Accounts total ({(d.pte p).frame} + inHand) m (d.setPte p .zero) := by
        refine h.setPte hsome (fun _ => ?_) fun hge => absurd hp hge
        unfold Pte.held
        rw [if_neg Pte.not_present_zero, if_pos hpres]
        abel
      exact hhand.give
  · next hpres =>
    rw [wp_pure]
    refine hQ d m ⟨rfl, fun _ => rfl, fun q h₁ h₂ => ?_, fun _ _ => rfl⟩ h (.refl total m)
    rwa [show q = p by omega]

theorem wp_deallocLoop (hvalid : ∀ f ∈ total, L.Valid f) {n : Nat} (hn : n ≤ userPages) :
    ∀ (p : Nat) (d : Dir) (m : Mem), Accounts total inHand m d →
      wp (deallocLoop L n p d) (fun d' m' => Cleared d d' p n ∧ Accounts total inHand m' d' ∧ Untouched total m m')
        E m := by
  intro p
  -- Each round goes up by a page at least.
  induction hk : n - p using Nat.strong_induction_on generalizing p with
  | _ k ih =>
    intro d m h
    rw [deallocLoop]
    split
    · next hlt =>
      cases hpde : d.pde (p / NPTENTRIES) with
      | none =>
        have hnone := Dir.tableAt_eq_none.mpr hpde
        refine (ih _ ?_ _ rfl d m h).post fun d' m' hd => ⟨⟨hd.1.frame, hd.1.table, fun q h₁ h₂ => ?_, fun q hq => ?_⟩, hd.2⟩
        · unfold NPTENTRIES
          omega
        · by_cases hq : (p / NPTENTRIES + 1) * NPTENTRIES ≤ q
          · exact hd.1.gone q hq h₂
          · have hdir : q / NPTENTRIES = p / NPTENTRIES := by
              unfold NPTENTRIES at hq ⊢
              omega
            rw [Dir.pte_of_none]
            · exact Pte.not_present_zero
            · rw [hd.1.table, hdir]
              exact hnone
        · refine hd.1.pte q fun hq' => hq ⟨?_, hq'.2⟩
          have := hq'.1
          unfold NPTENTRIES at this
          omega
      | some t =>
        have hsome : d.tableAt (p / NPTENTRIES) ≠ none := mt Dir.tableAt_eq_none.mp (by simp [hpde])
        dsimp only
        rw [wp_bind]
        refine wp_freePage hvalid (by omega) hsome h fun d₁ m₁ h₁ hacc hun => ?_
        refine (ih _ (by omega) (p + 1) rfl d₁ m₁ hacc).post fun d' m' hd => ?_
        refine ⟨⟨hd.1.frame.trans h₁.frame, fun i => (hd.1.table i).trans (h₁.table i), fun q hpq hqn => ?_,
          fun q hq => ?_⟩, hd.2.1, hun.trans hd.2.2⟩
        · by_cases hq : q = p
          · rw [hd.1.pte q (by omega)]
            exact h₁.gone q hpq (by omega)
          · exact hd.1.gone q (by omega) hqn
        · rw [hd.1.pte q (by omega), h₁.pte q (by omega)]
    · next hge =>
      rw [wp_pure]
      exact ⟨⟨rfl, fun _ => rfl, fun q _ _ => by omega, fun _ _ => rfl⟩, h, .refl total m⟩

theorem pageCount_KERNBASE : pageCount KERNBASE = userPages := by
  rw [userPages_eq]
  rfl

theorem lt_userPages {p : Nat} : p < userPages ↔ p * PGSIZE < KERNBASE := by
  rw [userPages_eq]
  unfold PGSIZE KERNBASE
  omega

theorem pageCount_le_userPages {sz : Nat} : pageCount sz ≤ userPages ↔ sz ≤ KERNBASE := by
  rw [userPages_eq]
  unfold pageCount PGSIZE KERNBASE
  omega

/-- What `deallocuvm` returns and leaves. -/
theorem wp_deallocuvm (hvalid : ∀ f ∈ total, L.Valid f) {oldsz newsz : Nat} (hsz : oldsz ≤ KERNBASE)
    (h : Accounts total inHand m d) : wp (deallocuvm L d oldsz newsz) (fun r m' => r.1 = min oldsz newsz ∧
      Cleared d r.2 (pageCount newsz) (pageCount oldsz) ∧ Accounts total inHand m' r.2 ∧ Untouched total m m') E m := by
  unfold deallocuvm
  split
  · next hge =>
    have hle := pageCount_mono hge
    exact ⟨(Nat.min_eq_left hge).symm, ⟨rfl, fun _ => rfl, fun q h₁ h₂ => by omega, fun _ _ => rfl⟩, h, .refl total m⟩
  · next hlt =>
    rw [wp_bind]
    exact (wp_deallocLoop hvalid (pageCount_le_userPages.mpr hsz) _ d m h).post fun d' m' hd =>
      ⟨(Nat.min_eq_right (by omega)).symm, hd⟩

/-- The frame of page table `i`, if there is one. -/
def Dir.table (d : Dir) (i : Nat) : Multiset Frame := ((d.tableAt i).toList : Multiset Frame)

/-- A directory without pages is its own frame and those of the page tables. -/
theorem Accounts.tables_only (h : Accounts total inHand m d) (hgone : ∀ p < userPages, ¬ (d.pte p).Present) :
    ((List.range NPDENTRIES).map d.table).sum + ({d.frame} + inHand) + (m.free : Multiset Frame) = total := by
  have htables : ∑ i : Fin NPDENTRIES, d.held (.inr (.inl i)) = ((List.range NPDENTRIES).map d.table).sum :=
    sum_fin_eq_sum_range d.table NPDENTRIES
  have hpages : ∑ p : Fin userPages, d.held (.inr (.inr p)) = 0 :=
    Finset.sum_eq_zero fun p _ => if_neg (hgone p p.isLt)
  unfold Accounts Balanced at h
  rw [Fintype.sum_sum_type, Fintype.sum_sum_type, htables, hpages, Fintype.sum_unique] at h
  rw [← h]
  change _ = inHand + (m.free : Multiset Frame) + ({d.frame} + (_ + 0))
  abel

/-- The loop over the page tables. -/
theorem wp_freeTables (hvalid : ∀ f ∈ total, L.Valid f) {rest : Multiset Frame} (is : List Nat)
    (h : (is.map d.table).sum + rest + (m.free : Multiset Frame) = total) :
    wp (is.forM (freeTable L d)) (fun _ m' => rest + (m'.free : Multiset Frame) = total ∧ Untouched total m m')
      E m := by
  refine (wp_forM_inv (fun is m' => (is.map d.table).sum + rest + (m'.free : Multiset Frame) = total ∧
    Untouched total m m') ?_ is m ⟨h, .refl total m⟩).post fun _ m' hm => ?_
  · intro i is m' hm
    have hsum := hm.1
    rw [List.map_cons, List.sum_cons] at hsum
    unfold Dir.table Dir.tableAt at hsum
    unfold freeTable
    cases hpde : d.pde i with
    | none =>
      rw [hpde] at hsum
      refine ⟨?_, hm.2⟩
      rwa [Option.map_none, Option.toList_none, Multiset.coe_nil, zero_add] at hsum
    | some t =>
      rw [hpde] at hsum
      have hmem : t.frame ∈ total := by
        rw [← hsum]
        simp
      refine wp_kfree (hvalid _ hmem) ⟨?_, hm.2.trans (untouched_give hmem)⟩
      rw [← hsum]
      change _ + ((t.frame :: m'.free : List Frame) : Multiset Frame) = ({t.frame} : Multiset Frame) + _ + _ + _
      rw [← Multiset.cons_coe, ← Multiset.singleton_add]
      unfold Dir.table Dir.tableAt
      abel
  · have hsum := hm.1
    rw [List.map_nil, List.sum_nil, zero_add] at hsum
    exact ⟨hsum, hm.2⟩

/-- A directory is given back with all that belongs to it. What was in hand still is. -/
theorem wp_freevm (hvalid : ∀ f ∈ total, L.Valid f) (h : Accounts total inHand m d) :
    wp (freevm L d) (fun _ m' => inHand + (m'.free : Multiset Frame) = total ∧ Untouched total m m')
      E m := by
  unfold freevm
  rw [wp_bind]
  refine (wp_deallocuvm hvalid le_rfl h).post fun r m₁ hr => ?_
  obtain ⟨-, hd⟩ := hr
  obtain ⟨sz, d'⟩ := r
  dsimp only
  rw [wp_bind]
  have hsum := hd.2.1.tables_only fun p hp => hd.1.gone p (Nat.zero_le p) (pageCount_KERNBASE ▸ hp)
  refine (wp_freeTables hvalid _ hsum).post fun _ m₂ h₂ => ?_
  have hmem : d'.frame ∈ total := by
    rw [← h₂.1]
    simp
  refine wp_kfree (hvalid _ hmem) ⟨?_, (hd.2.2.trans h₂.2).trans (untouched_give hmem)⟩
  rw [← h₂.1]
  change _ + ((d'.frame :: m₂.free : List Frame) : Multiset Frame) = _
  rw [← Multiset.cons_coe, ← Multiset.singleton_add]
  abel

/-- An empty directory is made of a frame. -/
theorem Accounts.start {f : Frame} {rest : List Frame} (hfree : m.free = f :: rest) :
    Accounts m.free 0 { m with free := rest } ⟨f, fun _ => none⟩ := by
  have htables : ∑ i, (⟨f, fun _ => none⟩ : Dir).held (.inr (.inl i)) = 0 := Finset.sum_eq_zero fun _ _ => rfl
  have hpages : ∑ p, (⟨f, fun _ => none⟩ : Dir).held (.inr (.inr p)) = 0 :=
    Finset.sum_eq_zero fun _ _ => if_neg Pte.not_present_zero
  unfold Accounts Balanced
  rw [Fintype.sum_sum_type, Fintype.sum_sum_type, Fintype.sum_unique, htables, hpages, hfree, ← Multiset.cons_coe,
    ← Multiset.singleton_add]
  change 0 + (rest : Multiset Frame) + ({f} + (0 + 0)) = _
  abel

/-! ## Setting up -/

/-- The pages of a range of the kernel: the first one, and how many. -/
def Kmap.range (k : Kmap) : Nat × Nat :=
  (k.virt / PGSIZE, (k.virt + k.size - 1) / PGSIZE - k.virt / PGSIZE + 1)

/-- Page table `i` is needed for the ranges. -/
def Covered (rs : List (Nat × Nat)) (i : Nat) : Prop :=
  ∃ r ∈ rs, ∃ q, r.1 ≤ q ∧ q < r.1 + r.2 ∧ q / NPTENTRIES = i

theorem covered_cons {r : Nat × Nat} {rs : List (Nat × Nat)} {i : Nat} : Covered (r :: rs) i ↔
    (∃ q, r.1 ≤ q ∧ q < r.1 + r.2 ∧ q / NPTENTRIES = i) ∨ Covered rs i := by
  simp only [Covered, List.mem_cons, exists_eq_or_imp]

/-- The ranges come one after the other, from page `a` on. -/
def Ascending : Nat → List (Nat × Nat) → Prop
  | _, [] => True
  | a, r :: rs => a ≤ r.1 ∧ r.1 + r.2 ≤ NPDENTRIES * NPTENTRIES ∧ Ascending (r.1 + r.2) rs

/-- The frames have run out before all the page tables in `S` were there. -/
def RunsOut (total inHand : Multiset Frame) (S : Nat → Prop) (d : Dir) : Prop :=
  ∃ m' d', Accounts total inHand m' d' ∧ m'.free = [] ∧ (∀ i, d'.tableAt i ≠ none → S i) ∧
    (∃ i < NPDENTRIES, S i ∧ d'.tableAt i = none) ∧ ∀ p < userPages, d'.pte p = d.pte p

/-- The pages of a range of the kernel have the frames that are meant for them. -/
def Kmap.Holds (k : Kmap) (d : Dir) : Prop :=
  ∀ q, k.range.1 ≤ q → q < k.range.1 + k.range.2 →
    d.pte q = ⟨k.physStart / PGSIZE + (q - k.range.1), k.perm ||| PTE_P⟩

theorem wp_kmapLoop (hvalid : ∀ f ∈ total, L.Valid f) {S : Nat → Prop} {Q : Option Dir → Mem → Prop} :
    ∀ (ks : List Kmap) (a : Nat) (d : Dir) (m : Mem), userPages ≤ a → Ascending a (ks.map Kmap.range) →
      (∀ q, a ≤ q → ¬ (d.pte q).Present) → Accounts total inHand m d → (∀ i, d.tableAt i ≠ none → S i) →
      (∀ i, Covered (ks.map Kmap.range) i → S i) →
      (∀ m', inHand + (m'.free : Multiset Frame) = total → Untouched total m m' → RunsOut total inHand S d → Q none m') →
      (∀ d' m', m'.bytes = m.bytes → Accounts total inHand m' d' → d'.frame = d.frame →
        (∀ i, d'.tableAt i ≠ none ↔ d.tableAt i ≠ none ∨ Covered (ks.map Kmap.range) i) →
        (∀ p < a, d'.pte p = d.pte p) → (∀ k ∈ ks, k.Holds d') → Q (some d') m') →
      wp (kmapLoop L ks d) Q E m := by
  intro ks
  induction ks with
  | nil =>
    intro a d m _ _ _ h _ _ _ hsome
    rw [kmapLoop, wp_pure]
    refine hsome d m rfl h rfl (fun i => ⟨.inl, ?_⟩) (fun _ _ => rfl) fun k hk => by cases hk
    rintro (hi | ⟨k, hk, -⟩)
    · exact hi
    · cases hk
  | cons k ks ih =>
    intro a d m hkernel hasc habs h hS hcov hnone hsome
    obtain ⟨hfirst, hlast, hasc⟩ := hasc
    rw [kmapLoop, wp_bind]
    change wp (mapLoop k.perm k.range.2 k.range.1 (k.physStart / PGSIZE) d) _ _ m
    refine (wp_mapLoop k.range.2 k.range.1 _ d m (by omega) hlast (fun q h₁ _ => habs q (by omega)) h).post
      fun r m₁ hr => ?_
    obtain ⟨hbytes, hacc, ⟨hres, hmap⟩ | ⟨hres, hfree, j, hj, hmap, htable⟩⟩ := hr
    · dsimp only
      rw [hres, if_pos rfl]
      have huser : ∀ p < a, r.2.pte p = d.pte p := fun p hp => by rw [hmap.pte, if_neg (by omega)]
      have htables : ∀ i, r.2.tableAt i ≠ none → S i := fun i hi =>
        ((hmap.table i).mp hi).elim (hS i) fun hq => hcov i (covered_cons.mpr (.inl hq))
      refine ih (k.range.1 + k.range.2) r.2 m₁ (by omega) hasc (fun q hq => ?_) hacc htables
        (fun i hi => hcov i (covered_cons.mpr (.inr hi))) (fun m' hsum hun hrun => ?_)
        fun d' m' hb hacc' hframe htab hpte hholds => ?_
      · rw [hmap.pte, if_neg (by omega)]
        exact habs q (by omega)
      · obtain ⟨m₂, d₂, hacc₂, hfree₂, hS₂, hmiss, hpte₂⟩ := hrun
        exact hnone m' hsum ((Untouched.of_bytes hbytes).trans hun)
          ⟨m₂, d₂, hacc₂, hfree₂, hS₂, hmiss, fun p hp => (hpte₂ p hp).trans (huser p (by omega))⟩
      · refine hsome d' m' (hb.trans hbytes) hacc' (hframe.trans hmap.frame) (fun i => ?_) (fun p hp => (hpte p (by omega)).trans (huser p hp))
          fun k' hk' => ?_
        · rw [htab i, hmap.table i, List.map_cons, covered_cons, or_assoc]
        · cases hk' with
          | head => exact fun q h₁ h₂ => by rw [hpte q h₂, hmap.pte, if_pos ⟨h₁, h₂⟩]
          | tail _ hk' => exact hholds k' hk'
    · dsimp only
      rw [hres, if_neg Bool.false_ne_true, wp_bind]
      refine (wp_freevm hvalid hacc).post fun _ m' hm => ?_
      rw [wp_pure]
      refine hnone m' hm.1 ((Untouched.of_bytes hbytes).trans hm.2) ⟨m₁, r.2, hacc, hfree, fun i hi => ?_,
        ⟨(k.range.1 + j) / NPTENTRIES, ?_, hcov _ (covered_cons.mpr (.inl ⟨k.range.1 + j, by omega, by omega, rfl⟩)), htable⟩,
        fun p hp => by rw [hmap.pte, if_neg (by omega)]⟩
      · refine ((hmap.table i).mp hi).elim (hS i) ?_
        rintro ⟨q, h₁, h₂, hq⟩
        exact hcov i (covered_cons.mpr (.inl ⟨q, h₁, by omega, hq⟩))
      · refine Nat.div_lt_of_lt_mul ?_
        rw [Nat.mul_comm]
        omega

/-- The page tables of the kernel: those from `KERNBASE` up to `PHYSTOP`, and for devices. -/
def KernelTable (i : Nat) : Prop := (512 ≤ i ∧ i < 568) ∨ (1016 ≤ i ∧ i < 1024)

instance (i : Nat) : Decidable (KernelTable i) := inferInstanceAs (Decidable (_ ∨ _))

theorem kmap_ranges : L.kmap.map Kmap.range =
    [(524288, 256), (524544, L.data - 256), (524288 + L.data, 57344 - L.data), (1040384, 8192)] := by
  have h₁ := L.data_gt
  have h₂ := L.data_lt
  simp only [Layout.kmap, List.map_cons, List.map_nil, Kmap.range, Kmap.size, List.cons.injEq, Prod.mk.injEq]
  unfold KERNBASE EXTMEM PHYSTOP DEVSPACE PGSIZE at *
  refine ⟨⟨?_, ?_⟩, ⟨?_, ?_⟩, ⟨?_, ?_⟩, ⟨?_, ?_⟩, trivial⟩ <;> omega

theorem ascending_kmap : Ascending userPages (L.kmap.map Kmap.range) := by
  have h₁ := L.data_gt
  have h₂ := L.data_lt
  rw [kmap_ranges, userPages_eq]
  unfold Ascending Ascending Ascending Ascending Ascending NPDENTRIES NPTENTRIES
  unfold EXTMEM PHYSTOP PGSIZE at *
  refine ⟨?_, ?_, ?_, ?_, ?_, ?_, ?_, ?_, trivial⟩ <;> dsimp only <;> omega

theorem covered_kmap {i : Nat} : Covered (L.kmap.map Kmap.range) i ↔ KernelTable i := by
  have h₁ := L.data_gt
  have h₂ := L.data_lt
  rw [kmap_ranges]
  unfold EXTMEM PHYSTOP PGSIZE at *
  simp only [Covered, List.mem_cons, List.not_mem_nil, or_false, exists_eq_or_imp, exists_eq_left, KernelTable, NPTENTRIES]
  constructor
  · rintro (⟨q, h⟩ | ⟨q, h⟩ | ⟨q, h⟩ | ⟨q, h⟩) <;> omega
  · rintro (h | h)
    · by_cases hlow : 1024 * i < 524544
      · exact .inl ⟨1024 * i, by omega⟩
      · by_cases hdata : 1024 * i < 524288 + L.data
        · exact .inr (.inl ⟨1024 * i, by omega⟩)
        · exact .inr (.inr (.inl ⟨1024 * i, by omega⟩))
    · exact .inr (.inr (.inr ⟨1024 * i, by omega⟩))

/-- There are 64 page tables for the kernel, and `t` for the user. -/
theorem card_tables {t : Nat} (ht : t ≤ 512) :
    (Finset.univ.filter fun i : Fin NPDENTRIES => KernelTable i ∨ (i : Nat) < t).card = 64 + t := by
  rw [Finset.card_filter, Fin.sum_univ_eq_sum_range (fun i => if KernelTable i ∨ i < t then 1 else 0),
    ← Finset.card_filter]
  have hsplit : (Finset.range NPDENTRIES).filter (fun i => KernelTable i ∨ i < t) =
      (Finset.Ico 512 568 ∪ Finset.Ico 1016 1024) ∪ Finset.range t := by
    ext i
    simp only [Finset.mem_filter, Finset.mem_range, Finset.mem_union, Finset.mem_Ico, KernelTable, NPDENTRIES]
    omega
  have hdisj : Disjoint (Finset.Ico 512 568) (Finset.Ico 1016 1024) := by decide
  have hdisj' : Disjoint (Finset.Ico 512 568 ∪ Finset.Ico 1016 1024) (Finset.range t) := by
    refine Finset.disjoint_left.mpr fun i hi hi' => ?_
    simp only [Finset.mem_union, Finset.mem_Ico, Finset.mem_range] at hi hi'
    omega
  rw [hsplit, Finset.card_union_of_disjoint hdisj', Finset.card_union_of_disjoint hdisj, Nat.card_Ico, Nat.card_Ico,
    Finset.card_range]

theorem Dir.tables_eq {t : Nat} (ht : t ≤ 512) (h : ∀ i, d.tableAt i ≠ none ↔ KernelTable i ∨ i < t) :
    d.tables = 64 + t := by
  unfold Dir.tables
  rw [← card_tables ht]
  exact congrArg Finset.card (Finset.filter_congr fun i _ => h i)

/-- With 65 frames a directory can be set up. -/
theorem RunsOut.card_lt (h : RunsOut total inHand KernelTable d) (hgone : ∀ p < userPages, ¬ (d.pte p).Present) :
    total.card < inHand.card + 65 := by
  obtain ⟨m', d', hacc, hfree, hsub, ⟨i, hi, hS, hmiss⟩, hpte⟩ := h
  have hcard := hacc.card
  have hpages : d'.pages = 0 := by
    refine Dir.pages_eq (Nat.zero_le _) fun p hp => ?_
    rw [hpte p hp]
    simpa using hgone p hp
  have htables : d'.tables < 64 := by
    have hall := card_tables (Nat.zero_le 512)
    unfold Dir.tables
    refine (Finset.card_lt_card ?_).trans_eq hall
    refine Finset.ssubset_iff_of_subset (fun j hj => ?_) |>.mpr ⟨⟨i, hi⟩, ?_, ?_⟩
    · exact Finset.mem_filter.mpr ⟨Finset.mem_univ j, .inl (hsub j (Finset.mem_filter.mp hj).2)⟩
    · exact Finset.mem_filter.mpr ⟨Finset.mem_univ _, .inl hS⟩
    · exact fun hj => (Finset.mem_filter.mp hj).2 hmiss
  rw [hfree, List.length_nil] at hcard
  omega

/-- A directory with the kernel in it, and nothing of the user. -/
structure NewDir (L : Layout) (d : Dir) : Prop where
  table : ∀ i, d.tableAt i ≠ none ↔ KernelTable i
  user : ∀ p < userPages, ¬ (d.pte p).Present
  kernel : ∀ k ∈ L.kmap, k.Holds d

/-- A new directory has the kernel and nothing of the user. For want of a frame everything
    is given back. -/
theorem wp_setupkvm {Q : Option Dir → Mem → Prop} (hvalid : ∀ f ∈ m.free, L.Valid f)
    (hnone : ∀ m', (m'.free : Multiset Frame) = m.free → Untouched m.free m m' → m.free.length < 65 → Q none m')
    (hsome : ∀ d m', m'.bytes = m.bytes → Accounts m.free 0 m' d → m.free.head? = some d.frame → NewDir L d →
      Q (some d) m') :
    wp (setupkvm L) Q E m := by
  simp only [setupkvm, wp_bind, wp_kalloc]
  refine ⟨fun hfree => ?_, fun f rest hfree => ?_⟩
  · rw [wp_pure]
    refine hnone m rfl (.refl _ m) ?_
    rw [hfree]
    decide
  · have hempty : ∀ i, (⟨f, fun _ => none⟩ : Dir).tableAt i = none := fun _ => rfl
    have hgone : ∀ p, ¬ ((⟨f, fun _ => none⟩ : Dir).pte p).Present := fun _ => Pte.not_present_zero
    have hacc : Accounts m.free 0 { m with free := rest } ⟨f, fun _ => none⟩ := .start hfree
    refine wp_kmapLoop hvalid L.kmap userPages _ _ le_rfl ascending_kmap (fun q _ => hgone q) hacc
      (S := KernelTable) (fun i hi => absurd (hempty i) hi) (fun i => covered_kmap.mp) (fun m' hsum hun hrun => ?_)
      fun d' m' hbytes hacc' hframe htable hpte hholds => ?_
    · rw [zero_add] at hsum
      refine hnone m' hsum hun ?_
      have := hrun.card_lt fun p _ => hgone p
      rwa [Multiset.card_zero, zero_add, Multiset.coe_card] at this
    · have hfirst : m.free.head? = some d'.frame := by rw [hfree, hframe, List.head?_cons]
      refine hsome d' m' hbytes hacc' hfirst ⟨fun i => ?_, fun p hp => ?_, hholds⟩
      · rw [htable i, covered_kmap]
        exact or_iff_right fun hi => hi (hempty i)
      · rw [hpte p hp]
        exact hgone p

end Rules

end Xv6.Paging
