-- SUMMARY: A directory that grows page by page: how many frames it takes, and when `allocuvm` fails.
import Xv6.Memory.PagingRules

/-! # Growing an address space

A new directory gets the pages of its user one after the other. The page tables come with
the first page in each of them. So the number of pages tells the number of frames that have
been taken, and whether there are frames for more.
-/

namespace Xv6.Paging

open Prog

/-- The number of page tables for the first `n` pages. -/
def tablesFor (n : Nat) : Nat := (n + NPTENTRIES - 1) / NPTENTRIES

/-- The frames of a directory with `n` pages: 65 are for the kernel. -/
def framesFor (n : Nat) : Nat := 65 + n + tablesFor n

theorem framesFor_lt {n k : Nat} (h : n < k) : framesFor n < framesFor k := by
  unfold framesFor tablesFor NPTENTRIES
  omega

theorem framesFor_le {n k : Nat} (h : n ≤ k) : framesFor n ≤ framesFor k := by
  unfold framesFor tablesFor NPTENTRIES
  omega

/-- From `d` to `d'` the pages from `p` up to `n` have been mapped. -/
structure Extended (d d' : Dir) (p n : Nat) (perm : Flags) : Prop where
  frame : d'.frame = d.frame
  table : ∀ i, d'.tableAt i ≠ none ↔ d.tableAt i ≠ none ∨ ∃ q, p ≤ q ∧ q < n ∧ q / NPTENTRIES = i
  old : ∀ q, ¬ (p ≤ q ∧ q < n) → d'.pte q = d.pte q
  new : ∀ q, p ≤ q → q < n → (d'.pte q).flags = perm ||| PTE_P

namespace Extended

variable {d d' d'' : Dir} {p k n : Nat} {perm : Flags}

theorem refl (d : Dir) (p : Nat) (perm : Flags) : Extended d d p p perm :=
  ⟨rfl, fun i => ⟨.inl, fun h => h.elim id fun ⟨q, h₁, h₂, _⟩ => by omega⟩, fun _ _ => rfl, fun q h₁ h₂ => by omega⟩

theorem of_mapped {f : Frame} (h : Mapped d d' n p f perm) : Extended d d' p (p + n) perm :=
  ⟨h.frame, h.table, fun q hq => by rw [h.pte, if_neg hq], fun q h₁ h₂ => by rw [h.pte, if_pos ⟨h₁, h₂⟩]⟩

theorem trans (h : Extended d d' p k perm) (h' : Extended d' d'' k n perm) (hpk : p ≤ k) (hkn : k ≤ n) :
    Extended d d'' p n perm := by
  refine ⟨h'.frame.trans h.frame, fun i => ?_, fun q hq => ?_, fun q h₁ h₂ => ?_⟩
  · rw [h'.table i, h.table i, or_assoc]
    refine or_congr_right ⟨?_, ?_⟩
    · rintro (⟨q, h₁, h₂, hq⟩ | ⟨q, h₁, h₂, hq⟩)
      · exact ⟨q, h₁, by omega, hq⟩
      · exact ⟨q, by omega, h₂, hq⟩
    · rintro ⟨q, h₁, h₂, hq⟩
      by_cases hqk : q < k
      · exact .inl ⟨q, h₁, hqk, hq⟩
      · exact .inr ⟨q, by omega, h₂, hq⟩
  · rw [h'.old q (by omega), h.old q (by omega)]
  · by_cases hqk : q < k
    · rw [h'.old q (by omega)]
      exact h.new q h₁ hqk
    · exact h'.new q (by omega) h₂

theorem present (h : Extended d d' p n perm) {q : Nat} (h₁ : p ≤ q) (h₂ : q < n) : (d'.pte q).Present := by
  have hflags := Pte.present_or (d'.pte q).frame perm
  rwa [← h.new q h₁ h₂] at hflags

end Extended

/-- For want of a frame the pages from `p` on were not mapped up to `n`, but `d₁` came of it. -/
def Halts (total : Multiset Frame) (d d₁ : Dir) (p n : Nat) : Prop :=
  ∃ k m₁, p ≤ k ∧ k < n ∧ Extended d d₁ p k (PTE_W ||| PTE_U) ∧ Accounts total 0 m₁ d₁ ∧
    (m₁.free = [] ∨ (m₁.free.length = 1 ∧ d₁.tableAt (k / NPTENTRIES) = none))

/-- The frames `F` were free, and the directory `d` has been made of them, with the kernel
    and the first `p` pages of the user. -/
structure Grown (L : Layout) (F : List Frame) (p : Nat) (d : Dir) (m : Mem) : Prop where
  accounts : Accounts F 0 m d
  first : F.head? = some d.frame
  table : ∀ i, d.tableAt i ≠ none ↔ KernelTable i ∨ i < tablesFor p
  present : ∀ q < userPages, (d.pte q).Present ↔ q < p
  kernel : ∀ k ∈ L.kmap, k.Holds d

section Growth

variable {L : Layout} {F : List Frame} {d : Dir} {p : Nat} {m : Mem} {E : Panic → Prop}

/-- One page is mapped. -/
theorem mappages_page {mem : Frame} {perm : Flags} : mappages d (p * PGSIZE) PGSIZE (mem * PGSIZE) perm =
    mapLoop perm 1 p mem d := by
  have hfirst : p * PGSIZE / PGSIZE = p := Nat.mul_div_cancel p (by decide)
  have hlast : (p * PGSIZE + PGSIZE - 1) / PGSIZE = p := by
    unfold PGSIZE
    omega
  have hmem : mem * PGSIZE / PGSIZE = mem := Nat.mul_div_cancel mem (by decide)
  unfold mappages
  rw [hlast, hfirst, hmem]
  dsimp only
  rw [Nat.sub_self]

theorem userPages_le_of_mem_kmap {k : Kmap} (hk : k ∈ L.kmap) : userPages ≤ k.range.1 := by
  have hmem := List.mem_map_of_mem (f := Kmap.range) hk
  rw [kmap_ranges] at hmem
  rw [userPages_eq]
  simp only [List.mem_cons, List.not_mem_nil, or_false] at hmem
  rcases hmem with h | h | h | h <;> rw [h] <;> omega

theorem tablesFor_le (hp : p ≤ userPages) : tablesFor p ≤ 512 := by
  rw [userPages_eq] at hp
  unfold tablesFor NPTENTRIES
  omega

namespace Grown

theorem new (hd : NewDir L d) (hacc : Accounts F 0 m d) (hfirst : F.head? = some d.frame) : Grown L F 0 d m where
  accounts := hacc
  first := hfirst
  table i := by
    have : tablesFor 0 = 0 := by decide
    rw [hd.table i, this]
    simp
  present q hq := by simpa using hd.user q hq
  kernel := hd.kernel

/-- How many frames there were. -/
theorem length (h : Grown L F p d m) (hp : p ≤ userPages) : F.length = m.free.length + framesFor p := by
  have hcard := h.accounts.card
  rw [Dir.tables_eq (tablesFor_le hp) h.table, Dir.pages_eq hp h.present, Multiset.card_zero, Multiset.coe_card] at hcard
  unfold framesFor
  omega

/-- The first page above those of the user is the kernel's. -/
theorem kernel_present (h : Grown L F p d m) : (d.pte userPages).Present := by
  have hk : (⟨KERNBASE, 0, EXTMEM, PTE_W⟩ : Kmap) ∈ L.kmap := List.mem_cons_self
  have hfirst : (⟨KERNBASE, 0, EXTMEM, PTE_W⟩ : Kmap).range = (524288, 256) := by decide
  rw [h.kernel _ hk userPages (by rw [hfirst, userPages_eq]) (by rw [hfirst, userPages_eq]; decide)]
  exact Pte.present_or _ _

/-- The pages up to `n` were mapped. -/
theorem extend {d' : Dir} {m' : Mem} {n : Nat} {perm : Flags} (h : Grown L F p d m) (hext : Extended d d' p n perm)
    (hpn : p ≤ n) (hn : n ≤ userPages) (hacc : Accounts F 0 m' d') : Grown L F n d' m' := by
  refine ⟨hacc, hext.frame ▸ h.first, fun i => ?_, fun q hq => ?_, fun k hk q h₁ h₂ => ?_⟩
  · rw [hext.table i, h.table i, or_assoc]
    refine or_congr_right ⟨?_, fun hi => ?_⟩
    · rintro (hi | ⟨q, h₁, h₂, rfl⟩)
      all_goals
        unfold tablesFor NPTENTRIES at *
        omega
    · by_cases hlt : i < tablesFor p
      · exact .inl hlt
      · refine .inr ⟨max p (NPTENTRIES * i), ?_⟩
        unfold tablesFor NPTENTRIES at *
        omega
  · by_cases hqp : p ≤ q ∧ q < n
    · exact iff_of_true (hext.present hqp.1 hqp.2) hqp.2
    · rw [hext.old q hqp, h.present q hq]
      omega
  · have hge : userPages ≤ q := (userPages_le_of_mem_kmap hk).trans h₁
    rw [hext.old q (by omega)]
    exact h.kernel k hk q h₁ h₂

end Grown

/-- A frame that was taken and filled is mapped to page `p`, unless there is no frame left
    for the page table. -/
theorem wp_mapFrame {total : Multiset Frame} {mem : Frame} {rest : List Frame} {c : Bytes} {perm : Flags}
    {Q : Bool × Dir → Mem → Prop} (h : Accounts total 0 m d) (hp : p < userPages) (habs : ¬ (d.pte p).Present)
    (hfree : m.free = mem :: rest)
    (hfull : d.tableAt (p / NPTENTRIES) = none → rest = [] →
      Accounts total {mem} ⟨rest, Function.update m.bytes mem c⟩ d → Q (false, d) ⟨rest, Function.update m.bytes mem c⟩)
    (hok : ∀ d' m', Mapped d d' 1 p mem perm → Accounts total 0 m' d' → m'.bytes = Function.update m.bytes mem c →
      Q (true, d') m') :
    wp (mapLoop perm 1 p mem d) Q E ⟨rest, Function.update m.bytes mem c⟩ := by
  have hhand : Accounts total ({mem} + 0) ⟨rest, Function.update m.bytes mem c⟩ d := (h.take hfree).bytes
  have hown : Accounts total (owned p mem + 0) ⟨rest, Function.update m.bytes mem c⟩ d := by
    rwa [owned, if_pos hp]
  have hdir : p / NPTENTRIES < NPDENTRIES := by
    rw [userPages_eq] at hp
    unfold NPTENTRIES NPDENTRIES
    omega
  rw [mapLoop, wp_bind]
  refine wp_mapPage hown hdir habs (fun hnone hrest => ?_) fun d' m' hmap hacc hbytes => ?_
  · rw [wp_pure]
    rw [add_zero] at hhand
    exact hfull hnone hrest hhand
  · dsimp only
    rw [mapLoop, wp_pure]
    exact hok d' m' hmap hacc hbytes

/-- In a directory that has grown to `p` pages, a page table is missing just at the
    first page in it. -/
theorem Grown.div_eq_tablesFor (h : Grown L F p d m) (hnone : d.tableAt (p / NPTENTRIES) = none) :
    tablesFor p = p / NPTENTRIES ∧ NPTENTRIES * (p / NPTENTRIES) = p := by
  have hfirst : ¬ p / NPTENTRIES < tablesFor p := fun hlt => (h.table _).mpr (.inr hlt) hnone
  unfold tablesFor NPTENTRIES at *
  omega

/-- It takes two frames to go on from there. -/
theorem Grown.framesFor_step (h : Grown L F p d m) (hnone : d.tableAt (p / NPTENTRIES) = none) :
    framesFor p + 1 < framesFor (p + 1) := by
  obtain ⟨h₁, h₂⟩ := h.div_eq_tablesFor hnone
  unfold framesFor
  unfold tablesFor at *
  unfold NPTENTRIES at *
  omega

/-! ## allocuvm -/

theorem wp_allocLoop {total : Multiset Frame} (hvalid : ∀ f ∈ total, L.Valid f) {oldsz newsz : Nat}
    (hnew : newsz ≤ KERNBASE) {Q : Nat × Dir → Mem → Prop} : ∀ (n p : Nat) (d : Dir) (m : Mem),
    p + n = pageCount newsz → Accounts total 0 m d → (∀ q, p ≤ q → q < userPages → ¬ (d.pte q).Present) →
    (∀ d₁ d' m', Halts total d d₁ p (pageCount newsz) → Cleared d₁ d' (pageCount oldsz) (pageCount newsz) →
      Accounts total 0 m' d' → Q (0, d') m') →
    (∀ d' m', Extended d d' p (pageCount newsz) (PTE_W ||| PTE_U) → Accounts total 0 m' d' → Q (newsz, d') m') →
    wp (allocLoop L oldsz newsz n p d) Q E m := by
  have huser : pageCount newsz ≤ userPages := pageCount_le_userPages.mpr hnew
  intro n
  induction n with
  | zero =>
    intro p d m hN h _ _ hok
    obtain rfl : p = pageCount newsz := hN
    rw [allocLoop, wp_pure]
    exact hok d m (.refl d _ _) h
  | succ n ih =>
    intro p d m hN h habs hfail hok
    rw [allocLoop, wp_bind, wp_kalloc]
    refine ⟨fun hfree => ?_, fun mem rest hfree => ?_⟩
    · rw [wp_bind]
      refine (wp_deallocuvm hvalid hnew h).post fun r m' hr => ?_
      exact hfail d _ m' ⟨p, m, le_rfl, by omega, .refl d p _, h, .inl hfree⟩ hr.2.1 hr.2.2.1
    · simp only [wp_bind, wp_fill, mappages_page]
      refine wp_mapFrame h (by omega) (habs p le_rfl (by omega)) hfree (fun hnone hrest hhand => ?_)
        fun d' m' hmap hacc _ => ?_
      · dsimp only
        rw [if_neg Bool.false_ne_true, wp_bind]
        -- What was allocated is given back, and then what is in hand.
        refine (wp_deallocuvm hvalid hnew hhand).post fun r m' hr => ?_
        have hback : Accounts total ({mem} + 0) m' r.2 := by
          rw [add_zero]
          exact hr.2.2.1
        rw [wp_bind]
        refine wp_kfree (hvalid mem (hhand.mem_of_inHand (Multiset.mem_singleton_self mem))) ?_
        refine hfail d _ _ ⟨p, m, le_rfl, by omega, .refl d p _, h, .inr ⟨?_, hnone⟩⟩ hr.2.1 hback.give
        rw [hfree, hrest, List.length_singleton]
      · dsimp only
        rw [if_pos rfl]
        have hone := Extended.of_mapped hmap
        refine ih (p + 1) d' m' (by omega) hacc (fun q h₁ h₂ => ?_) (fun d₁ d₂ m₂ hhalts => ?_) fun d₂ m₂ hext => ?_
        · rw [hone.old q (by omega)]
          exact habs q (by omega) h₂
        · obtain ⟨k, m₁, hk, hkn, hext, hrest⟩ := hhalts
          exact hfail d₁ d₂ m₂ ⟨k, m₁, by omega, hkn, hone.trans hext (by omega) hk, hrest⟩
        · exact hok d₂ m₂ (hone.trans hext (by omega) (by omega))

/-- What `allocuvm` does to a directory whose pages end at `oldsz`. -/
theorem wp_allocuvm {total : Multiset Frame} (hvalid : ∀ f ∈ total, L.Valid f) {oldsz newsz : Nat}
    {Q : Nat × Dir → Mem → Prop} (h : Accounts total 0 m d)
    (habs : ∀ q, pageCount oldsz ≤ q → q < userPages → ¬ (d.pte q).Present) (hbig : newsz ≥ KERNBASE → Q (0, d) m)
    (hless : newsz < oldsz → Q (oldsz, d) m)
    (hfail : newsz < KERNBASE → oldsz ≤ newsz → ∀ d₁ d' m', Halts total d d₁ (pageCount oldsz) (pageCount newsz) →
      Cleared d₁ d' (pageCount oldsz) (pageCount newsz) → Accounts total 0 m' d' → Q (0, d') m')
    (hok : newsz < KERNBASE → oldsz ≤ newsz → ∀ d' m',
      Extended d d' (pageCount oldsz) (pageCount newsz) (PTE_W ||| PTE_U) → Accounts total 0 m' d' → Q (newsz, d') m') :
    wp (allocuvm L d oldsz newsz) Q E m := by
  unfold allocuvm
  split
  · next hge => exact hbig hge
  · next hge =>
    split
    · next hlt => exact hless hlt
    · next hlt =>
      have hle := pageCount_mono (not_lt.mp hlt)
      exact wp_allocLoop hvalid (by omega) _ _ d m (by omega) h habs (hfail (by omega) (by omega))
        (hok (by omega) (by omega))

/-- How `allocuvm` fails: there were too few frames for `n` pages. What is left of the
    directory can be freed. -/
structure AllocFails (F : List Frame) (n : Nat) (d : Dir) (m : Mem) : Prop where
  accounts : Accounts F 0 m d
  short : F.length < framesFor n

/-- Frames have run out, so there were too few. -/
theorem Grown.short {d₁ : Dir} {n : Nat} (h : Grown L F p d m) (hhalts : Halts F d d₁ p n) (hn : n ≤ userPages) :
    F.length < framesFor n := by
  obtain ⟨k, m₁, hpk, hkn, hext, hacc, hfree⟩ := hhalts
  have hgrown : Grown L F k d₁ m₁ := h.extend hext hpk (by omega) hacc
  have hlen := hgrown.length (by omega)
  rcases hfree with hfree | ⟨hfree, hnone⟩
  · have := framesFor_lt hkn
    rw [hfree, List.length_nil] at hlen
    omega
  · have hstep := hgrown.framesFor_step hnone
    have hle : framesFor (k + 1) ≤ framesFor n := framesFor_le hkn
    omega

/-- What `allocuvm` does to a directory that has grown to `oldsz`. -/
theorem wp_allocuvm_grown (hvalid : ∀ f ∈ F, L.Valid f) {oldsz newsz : Nat} {Q : Nat × Dir → Mem → Prop}
    (h : Grown L F (pageCount oldsz) d m) (hbig : newsz ≥ KERNBASE → Q (0, d) m)
    (hless : newsz < oldsz → Q (oldsz, d) m)
    (hfail : ∀ d' m', newsz < KERNBASE → oldsz ≤ newsz → AllocFails F (pageCount newsz) d' m' → Q (0, d') m')
    (hok : ∀ d' m', newsz < KERNBASE → oldsz ≤ newsz → Grown L F (pageCount newsz) d' m' →
      Extended d d' (pageCount oldsz) (pageCount newsz) (PTE_W ||| PTE_U) → Q (newsz, d') m') :
    wp (allocuvm L d oldsz newsz) Q E m := by
  refine wp_allocuvm (fun f hf => hvalid f (Multiset.mem_coe.mp hf)) h.accounts
    (fun q h₁ h₂ hpres => not_lt.mpr h₁ ((h.present q h₂).mp hpres)) hbig hless
    (fun hlt hle d₁ d' m' hhalts _ hacc => ?_) fun hlt hle d' m' hext hacc => ?_
  · exact hfail d' m' hlt hle ⟨hacc, h.short hhalts (pageCount_le_userPages.mpr hlt.le)⟩
  · exact hok d' m' hlt hle (h.extend hext (pageCount_mono hle) (pageCount_le_userPages.mpr hlt.le) hacc) hext

end Growth

/-! ## From setupkvm to freevm -/

/-- `exec` asks for one size after the other, until there is no memory left. -/
def growAll (L : Layout) : List Nat → Nat → Dir → MProg Dir
  | [], _, d => pure d
  | n :: ns, sz, d => do
    let (sz, d) ← allocuvm L d sz n
    if sz = 0 then pure d else growAll L ns sz d

/-- A directory is made, grows to the sizes `ns`, shrinks from `oldsz` to `newsz` and is freed. -/
def lifetime (L : Layout) (ns : List Nat) (oldsz newsz : Nat) : MProg Unit := do
  match ← setupkvm L with
  | none => pure ()
  | some d => do
    let d ← growAll L ns 0 d
    let (_, d) ← deallocuvm L d oldsz newsz
    freevm L d

section Lifetime

variable {L : Layout} {F : List Frame} {E : Panic → Prop}

theorem wp_growAll (hvalid : ∀ f ∈ F, L.Valid f) (ns : List Nat) (sz : Nat) (d : Dir) (m : Mem)
    (h : Grown L F (pageCount sz) d m) : wp (growAll L ns sz d) (fun d' m' => Accounts F 0 m' d') E m := by
  induction ns generalizing sz d m with
  | nil => exact h.accounts
  | cons n ns ih =>
    rw [growAll, wp_bind]
    have hnext : ∀ {sz' d' m'}, Grown L F (pageCount sz') d' m' →
        wp (if sz' = 0 then pure d' else growAll L ns sz' d') (fun d'' m'' => Accounts F 0 m'' d'') E m' := by
      intro sz' d' m' h'
      split
      · exact h'.accounts
      · exact ih sz' d' m' h'
    refine wp_allocuvm_grown hvalid h (fun _ => h.accounts) (fun _ => hnext h) (fun d' m' _ _ hfail => ?_)
      fun d' m' _ _ hgrown _ => hnext hgrown
    exact hfail.accounts

/-- However much memory there is and wherever it runs out, an address space gives back all
    frames that it has taken, and no call panics. -/
theorem lifetime_gives_back {m : Mem} (hvalid : ∀ f ∈ m.free, L.Valid f) (ns : List Nat) {oldsz newsz : Nat}
    (hsz : oldsz ≤ KERNBASE) :
    wp (lifetime L ns oldsz newsz) (fun _ m' => (m'.free : Multiset Frame) = m.free) (fun _ => False) m := by
  have hvalid' : ∀ f ∈ (m.free : Multiset Frame), L.Valid f := fun f hf => hvalid f (Multiset.mem_coe.mp hf)
  have hfree : ∀ d m', Accounts m.free 0 m' d →
      wp (freevm L d) (fun _ m' => (m'.free : Multiset Frame) = m.free) (fun _ => False) m' := by
    intro d m' h
    refine (wp_freevm hvalid' h).post fun _ m'' h' => ?_
    rw [← h'.1, zero_add]
  rw [lifetime, wp_bind]
  refine wp_setupkvm hvalid (fun m' hsame _ _ => hsame) fun d m' _ hacc hfirst hnew => ?_
  simp only [wp_bind]
  refine (wp_growAll hvalid ns 0 d m' (.new hnew hacc hfirst)).post fun d' m₁ h₁ => ?_
  exact (wp_deallocuvm hvalid' hsz h₁).post fun r m₂ h₂ => hfree r.2 m₂ h₂.2.2.1

end Lifetime

/-- Seventy free frames, two pages and then one. -/
theorem lifetime_gives_back_small : ∃ (L : Layout) (m : Mem), m.free.length = 70 ∧
    wp (lifetime L [8192] 8192 4096) (fun _ m' => (m'.free : Multiset Frame) = m.free) (fun _ => False) m := by
  obtain ⟨m, hm⟩ : ∃ m : Mem, m.free = List.range' 300 70 := ⟨⟨_, fun _ => .zero⟩, rfl⟩
  refine ⟨⟨264, 300, by decide, by decide, by decide⟩, m, hm ▸ List.length_range', ?_⟩
  refine lifetime_gives_back (fun f hf => ?_) _ (by decide)
  obtain ⟨hge, hlt⟩ := List.mem_range'_1.mp (hm ▸ hf)
  exact ⟨hge, hlt.trans (by decide)⟩

end Xv6.Paging
