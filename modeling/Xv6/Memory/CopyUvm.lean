-- SUMMARY: Copying an address space: each page with its own frame, and what is lost when the frames run out.
import Xv6.Memory.Growth

/-! # Copying an address space

`copyuvm` takes a frame for a page and then maps it. Mapping needs another frame where the
page is the first one in its page table. If there is none, `freevm` gives back what the new
directory has got, and the frame that was not mapped is on no list any more.
-/

namespace Xv6.Paging

open Prog

/-- Among `n` pages there is one for which the frames run out between taking a frame and
    mapping it, when there were `free` of them. -/
def Strands (n free : Nat) : Prop := ∃ k, NPTENTRIES * k < n ∧ free = 66 + (NPTENTRIES + 1) * k

/-- The first `p` pages of `D` have been copied to `d`. Before, the frames `F` were free and
    `c` was in the frames. -/
structure Copying (L : Layout) (F : List Frame) (D : Dir) (c : Frame → Bytes) (p : Nat) (d : Dir) (m : Mem) : Prop
    extends Grown L F p d m where
  flags : ∀ q < p, (d.pte q).flags = (D.pte q).flags
  bytes : ∀ q < p, (D.pte q).frame ∉ F → m.bytes (d.pte q).frame = c (D.pte q).frame
  others : ∀ g ∉ F, m.bytes g = c g

section Copy

variable {L : Layout} {F : List Frame} {D d : Dir} {c : Frame → Bytes} {p : Nat} {m : Mem}

namespace Copying

theorem new (hd : NewDir L d) (hacc : Accounts F 0 m d) (hfirst : F.head? = some d.frame) :
    Copying L F D m.bytes 0 d m where
  toGrown := .new hd hacc hfirst
  flags q hq := absurd hq (Nat.not_lt_zero q)
  bytes q hq := absurd hq (Nat.not_lt_zero q)
  others _ _ := rfl

theorem not_strands (h : Copying L F D c p d m) (hp : p ≤ userPages) : ¬ Strands p F.length := by
  rintro ⟨k, hk, hlen⟩
  have := h.length hp
  unfold framesFor tablesFor at this
  unfold NPTENTRIES at *
  omega

/-- A frame was taken for page `p`, filled and mapped. -/
theorem copied {d' : Dir} {m' : Mem} {mem : Frame} {rest : List Frame} (h : Copying L F D c p d m) (hF : F.Nodup)
    (hp : p < userPages) (hpres : (D.pte p).Present) (hfree : m.free = mem :: rest)
    (hmap : Mapped d d' 1 p mem (D.pte p).flags) (hacc : Accounts F 0 m' d')
    (hbytes : m'.bytes = Function.update m.bytes mem (m.bytes (D.pte p).frame)) :
    Copying L F D c (p + 1) d' m' := by
  have hmem : mem ∈ F := Multiset.mem_coe.mp (h.accounts.mem_of_free (by simp [hfree]))
  have hother : ∀ q ≠ p, d'.pte q = d.pte q := fun q hq => by rw [hmap.pte, if_neg (by omega)]
  have hself : d'.pte p = ⟨mem, (D.pte p).flags⟩ := by
    rw [hmap.pte, if_pos (by omega), hpres.or, Nat.sub_self, Nat.add_zero]
  -- The frame was free, so no page has it.
  have hfresh : ∀ q < p, (d.pte q).frame ≠ mem := by
    intro q hq heq
    have hq' : q < userPages := hq.trans hp
    refine Balanced.notMem_held h.accounts (Multiset.coe_nodup.mpr hF) (x := mem) ?_ (.inr (.inr ⟨q, hq'⟩)) ?_
    · simp [hfree]
    · change mem ∈ (d.pte q).held
      unfold Pte.held
      rw [if_pos ((h.present q hq').mpr hq), heq]
      exact Multiset.mem_singleton_self mem
  have hgrown := h.toGrown.extend (.of_mapped hmap) (Nat.le_succ p) hp hacc
  refine { toGrown := hgrown, flags := fun q hq => ?_, bytes := fun q hq hused => ?_, others := fun g hg => ?_ }
  · by_cases hqp : q = p
    · rw [hqp, hself]
    · rw [hother q hqp]
      exact h.flags q (by omega)
  · by_cases hqp : q = p
    · subst hqp
      rw [hself, hbytes, Function.update_self]
      exact h.others _ hused
    · rw [hother q hqp, hbytes, Function.update_of_ne (hfresh q (by omega))]
      exact h.bytes q (by omega) hused
  · have hne : g ≠ mem := fun heq => hg (heq ▸ hmem)
    rw [hbytes, Function.update_of_ne hne]
    exact h.others g hg

end Copying

/-- How a copy of `n` pages fails. -/
structure CopyFails (F : List Frame) (c : Frame → Bytes) (n : Nat) (m : Mem) : Prop where
  others : ∀ g ∉ F, m.bytes g = c g
  short : F.length < framesFor n
  free : (¬ Strands (min n userPages) F.length ∧ (m.free : Multiset Frame) = F) ∨
    (Strands (min n userPages) F.length ∧ ∃ f, {f} + (m.free : Multiset Frame) = F)

/-- How a copy of `n` pages of `D` ends. -/
def CopyEnds (L : Layout) (F : List Frame) (D : Dir) (c : Frame → Bytes) (n : Nat) : Option Dir → Mem → Prop
  | some d, m => Copying L F D c n d m ∧ n ≤ userPages
  | none, m => CopyFails F c n m

/-- Why it may stop. -/
def CopyStops (F : List Frame) (n : Nat) (e : Panic) : Prop :=
  e = .remap ∧ userPages < n ∧ ¬ Strands (min n userPages) F.length

/-- There is no frame for page `p`. -/
theorem Copying.fails_kalloc {m' : Mem} {n : Nat} (h : Copying L F D c p d m) (hp : p ≤ userPages) (hn : p < n)
    (hfree : m.free = []) (hback : (m'.free : Multiset Frame) = F) (hun : Untouched F m m') : CopyFails F c n m' := by
  have hlen := h.length hp
  rw [hfree, List.length_nil, Nat.zero_add] at hlen
  refine ⟨fun g hg => (hun g (by simpa using hg)).trans (h.others g hg), hlen.trans_lt (framesFor_lt hn), .inl ⟨?_, hback⟩⟩
  rintro ⟨k, -, hk⟩
  unfold framesFor tablesFor NPTENTRIES at *
  omega

/-- There is one, but none for a page table. -/
theorem Copying.fails_walkpgdir {m' : Mem} {n : Nat} {mem : Frame} (h : Copying L F D c p d m) (hp : p < userPages)
    (hn : p < n) (hfree : m.free = [mem]) (hnone : d.tableAt (p / NPTENTRIES) = none)
    (hback : {mem} + (m'.free : Multiset Frame) = F) (hothers : ∀ g ∉ F, m'.bytes g = c g) : CopyFails F c n m' := by
  have hlen := h.length hp.le
  obtain ⟨htables, hfirst⟩ := h.div_eq_tablesFor hnone
  rw [hfree, List.length_singleton] at hlen
  refine ⟨hothers, ?_, .inr ⟨⟨p / NPTENTRIES, ?_, ?_⟩, mem, hback⟩⟩
  · have hstep : framesFor p + 1 < framesFor (p + 1) := h.framesFor_step hnone
    have hle : framesFor (p + 1) ≤ framesFor n := framesFor_le hn
    omega
  · rw [hfirst]
    exact lt_min hn hp
  · unfold framesFor at hlen
    rw [htables] at hlen
    unfold NPTENTRIES at *
    omega

theorem wp_copyLoop (hF : F.Nodup) (hvalid : ∀ f ∈ F, L.Valid f) {N : Nat} (hpres : ∀ q < N, (D.pte q).Present) :
    ∀ (n p : Nat) (d : Dir) (m : Mem), p + n = N → p ≤ userPages → Copying L F D c p d m →
      wp (copyLoop L D n p d) (CopyEnds L F D c N) (CopyStops F N) m := by
  have hvalid' : ∀ f ∈ (F : Multiset Frame), L.Valid f := fun f hf => hvalid f (Multiset.mem_coe.mp hf)
  intro n
  induction n with
  | zero =>
    intro p d m hN hp h
    rw [copyLoop, wp_pure]
    obtain rfl : p = N := hN
    exact ⟨h, hp⟩
  | succ n ih =>
    intro p d m hN hp h
    obtain ⟨t, hpde, hpte⟩ := Dir.exists_table_of_present (hpres p (by omega))
    have hin : (D.pte p).Present := hpres p (by omega)
    rw [copyLoop, hpde]
    dsimp only
    rw [hpte, if_neg (not_not.mpr hin), wp_bind, wp_kalloc]
    refine ⟨fun hfree => ?_, fun mem rest hfree => ?_⟩
    · rw [wp_bind]
      refine (wp_freevm hvalid' h.accounts).post fun _ m' hm => ?_
      rw [wp_pure]
      have hback := hm.1
      rw [zero_add] at hback
      exact h.fails_kalloc hp (by omega) hfree hback hm.2
    · simp only [wp_bind, wp_get, wp_fill, mappages_page]
      by_cases hlt : p < userPages
      · have habs : ¬ (d.pte p).Present := fun hpres => lt_irrefl p ((h.present p hlt).mp hpres)
        refine wp_mapFrame h.accounts hlt habs hfree (fun hnone hrest hhand => ?_) fun d' m' hmap hacc hbytes => ?_
        · dsimp only
          rw [if_neg Bool.false_ne_true, wp_bind]
          -- `freevm` does not know of the frame in hand.
          refine (wp_freevm hvalid' hhand).post fun _ m' hm => ?_
          rw [wp_pure]
          refine h.fails_walkpgdir hlt (by omega) (by rw [hfree, hrest]) hnone hm.1 fun g hg => ?_
          have hne : g ≠ mem := by
            rintro rfl
            exact hg (Multiset.mem_coe.mp (hhand.mem_of_inHand (Multiset.mem_singleton_self g)))
          rw [hm.2 g (by simpa using hg)]
          dsimp only
          rw [Function.update_of_ne hne]
          exact h.others g hg
        · dsimp only
          rw [if_pos rfl]
          exact ih (p + 1) d' m' (by omega) hlt (h.copied hF hlt hin hfree hmap hacc hbytes)
      · -- The first page of the kernel.
        obtain rfl : p = userPages := by omega
        rw [mapLoop, wp_bind]
        refine wp_mapPage_present h.kernel_present ⟨rfl, by omega, ?_⟩
        rw [Nat.min_eq_right (by omega)]
        exact h.not_strands le_rfl

/-- The frames on the free list are there once, and `kfree` has accepted them. -/
structure Mem.Sound (L : Layout) (m : Mem) : Prop where
  nodup : m.free.Nodup
  valid : ∀ f ∈ m.free, L.Valid f

/-- What `copyuvm` does, with all outcomes. -/
theorem wp_copyuvm {sz : Nat} (hm : m.Sound L) (hpres : ∀ q < pageCount sz, (D.pte q).Present) :
    wp (copyuvm L D sz) (CopyEnds L m.free D m.bytes (pageCount sz)) (CopyStops m.free (pageCount sz)) m := by
  unfold copyuvm
  rw [wp_bind]
  refine wp_setupkvm hm.valid (fun m' hback hun hshort => ?_) fun d m' hbytes hacc hfirst hnew => ?_
  · rw [wp_pure]
    refine ⟨fun g hg => hun g (by simpa using hg), by unfold framesFor; omega, .inl ⟨?_, hback⟩⟩
    rintro ⟨k, -, hk⟩
    unfold NPTENTRIES at hk
    omega
  · have hstart : Copying L m.free D m.bytes 0 d m' := hbytes ▸ .new hnew hacc hfirst
    exact wp_copyLoop hm.nodup hm.valid hpres (pageCount sz) 0 d m' (Nat.zero_add _) (Nat.zero_le _) hstart

/-! ## Copied or given back -/

/-- The pages of `D` below `sz` have been copied to `d`, from `m` to `m'`. -/
structure Duplicate (D d : Dir) (sz : Nat) (m m' : Mem) : Prop where
  present : ∀ p, p * PGSIZE < sz → (d.pte p).Present
  fresh : ∀ p, p * PGSIZE < sz → (d.pte p).frame ∈ m.free ∧ (d.pte p).frame ∉ m'.free
  distinct : ∀ p q, p * PGSIZE < sz → q * PGSIZE < sz → (d.pte p).frame = (d.pte q).frame → p = q
  unshared : ∀ p q, p * PGSIZE < sz → q * PGSIZE < sz → (d.pte p).frame ≠ (D.pte q).frame
  bytes : ∀ p, p * PGSIZE < sz → m'.bytes (d.pte p).frame = m.bytes (D.pte p).frame
  flags : ∀ p, p * PGSIZE < sz → (d.pte p).flags = (D.pte p).flags
  only : ∀ p, p * PGSIZE < KERNBASE → (d.pte p).Present → p * PGSIZE < sz

/-- The same frames are free in `m'` as in `m`, and the pages of `D` are as they were. -/
structure GivenBack (D : Dir) (sz : Nat) (m m' : Mem) : Prop where
  free : m'.free.Perm m.free
  parent : ∀ p, p * PGSIZE < sz → p * PGSIZE < KERNBASE → m'.bytes (D.pte p).frame = m.bytes (D.pte p).frame

theorem Copying.duplicate {m' : Mem} {sz : Nat} (h : Copying L m.free D m.bytes (pageCount sz) d m')
    (hm : m.Sound L) (hsz : pageCount sz ≤ userPages)
    (hused : ∀ q < pageCount sz, q < userPages → (D.pte q).frame ∉ m.free) : Duplicate D d sz m m' := by
  have hnodup : (m.free : Multiset Frame).Nodup := Multiset.coe_nodup.mpr hm.nodup
  have hin : ∀ p, p * PGSIZE < sz → p < userPages := fun p hp => (lt_pageCount.mpr hp).trans_le hsz
  have hpres : ∀ p, p * PGSIZE < sz → (d.pte p).Present := fun p hp => (h.present p (hin p hp)).mpr (lt_pageCount.mpr hp)
  have hheld : ∀ p (hp : p * PGSIZE < sz), (d.pte p).frame ∈ d.held (.inr (.inr ⟨p, hin p hp⟩)) := by
    intro p hp
    change _ ∈ (d.pte p).held
    unfold Pte.held
    rw [if_pos (hpres p hp)]
    exact Multiset.mem_singleton_self _
  have hfree : ∀ p, p * PGSIZE < sz → (d.pte p).frame ∈ m.free := fun p hp =>
    Multiset.mem_coe.mp (h.accounts.mem_of_pte (hin p hp) (hpres p hp))
  refine ⟨hpres, fun p hp => ⟨hfree p hp, fun hf => ?_⟩, fun p q hp hq heq => ?_, fun p q hp hq heq => ?_,
    fun p hp => h.bytes p (lt_pageCount.mpr hp) (hused p (lt_pageCount.mpr hp) (hin p hp)), fun p hp => h.flags p (lt_pageCount.mpr hp), fun p hp hpr => ?_⟩
  · refine Balanced.notMem_held h.accounts hnodup ?_ _ (hheld p hp)
    rw [zero_add]
    exact Multiset.mem_coe.mpr hf
  · by_contra hne
    have hplace : (.inr (.inr ⟨p, hin p hp⟩) : Place) ≠ .inr (.inr ⟨q, hin q hq⟩) := by
      intro h
      exact hne (Fin.mk.inj (Sum.inr.inj (Sum.inr.inj h)))
    exact Balanced.notMem_held_of_ne h.accounts hnodup hplace (heq ▸ hheld p hp) (hheld q hq)
  · exact hused q (lt_pageCount.mpr hq) (hin q hq) (heq ▸ hfree p hp)
  · exact lt_pageCount.mp ((h.present p (lt_userPages.mpr hp)).mp hpr)

/-- Strandings, in terms of sizes. -/
theorem strands_iff {sz free : Nat} : Strands (min (pageCount sz) userPages) free ↔
    ∃ k, NPTENTRIES * k * PGSIZE < min sz KERNBASE ∧ free = 66 + (NPTENTRIES + 1) * k := by
  refine exists_congr fun k => and_congr_left fun _ => ?_
  rw [lt_min_iff, lt_min_iff, lt_pageCount, lt_userPages]

/-- The frame that was taken last is neither mapped nor given back. -/
theorem copyuvm_strands {sz : Nat} (hm : m.Sound L) (hpres : ∀ q < pageCount sz, (D.pte q).Present)
    (hstrands : Strands (min (pageCount sz) userPages) m.free.length) :
    ∃ m', copyuvm L D sz m = .ok (none, m') ∧ m.free.length = m'.free.length + 1 := by
  have hends := wp_copyuvm hm hpres
  rw [wp_iff_run] at hends
  cases hrun : copyuvm L D sz m with
  | error e => exact absurd hstrands (hends.2 e hrun).2.2
  | ok r =>
    obtain ⟨r, m'⟩ := r
    cases r with
    | some d =>
      obtain ⟨hcopy, hsz⟩ := hends.1 _ _ hrun
      rw [Nat.min_eq_left hsz] at hstrands
      exact absurd hstrands (hcopy.not_strands hsz)
    | none =>
      refine ⟨m', rfl, ?_⟩
      obtain ⟨-, f, hf⟩ := (hends.1 _ _ hrun).free.resolve_left fun h => h.1 hstrands
      have hcard := congrArg Multiset.card hf
      rw [Multiset.card_add, Multiset.card_singleton, Multiset.coe_card, Multiset.coe_card] at hcard
      omega

/-- A copy is complete or everything is given back, unless the frames run out just when
    a page table is needed for a frame that has been taken. -/
theorem copyuvm_copies_iff (L : Layout) (D : Dir) (sz : Nat) (m : Mem) (hm : m.Sound L)
    (hpres : ∀ p, p * PGSIZE < sz → (D.pte p).Present)
    (hused : ∀ p, p * PGSIZE < sz → p * PGSIZE < KERNBASE → (D.pte p).frame ∉ m.free) :
    wp (copyuvm L D sz)
      (fun r m' => (∀ d, r = some d → Duplicate D d sz m m') ∧ (r = none → GivenBack D sz m m'))
      (fun _ => KERNBASE < sz) m ↔
    ∀ k, NPTENTRIES * k * PGSIZE < min sz KERNBASE → m.free.length ≠ 66 + (NPTENTRIES + 1) * k := by
  have hused' : ∀ q < pageCount sz, q < userPages → (D.pte q).frame ∉ m.free := fun q hq hlt =>
    hused q (lt_pageCount.mp hq) (lt_userPages.mp hlt)
  have hpres' : ∀ q < pageCount sz, (D.pte q).Present := fun q hq => hpres q (lt_pageCount.mp hq)
  have hcond : (∀ k, NPTENTRIES * k * PGSIZE < min sz KERNBASE → m.free.length ≠ 66 + (NPTENTRIES + 1) * k) ↔
      ¬ Strands (min (pageCount sz) userPages) m.free.length := by
    simp only [strands_iff, not_exists, not_and, ne_eq]
  rw [hcond]
  constructor
  · intro h hstrands
    obtain ⟨m', hrun, hlost⟩ := copyuvm_strands hm hpres' hstrands
    have hback := ((h.of_run hrun).2 rfl).free.length_eq
    omega
  · intro hno
    refine (wp_copyuvm hm hpres').mono (fun r m' hr => ⟨fun d hd => ?_, fun hnone => ?_⟩) fun e he => ?_
    · subst hd
      exact hr.1.duplicate hm hr.2 hused'
    · subst hnone
      have hfree := hr.free.resolve_right fun h => hno h.1
      exact ⟨Multiset.coe_eq_coe.mp hfree.2, fun p hp hlt => hr.others _ (hused p hp hlt)⟩
    · exact not_le.mp fun hle => not_lt.mpr (pageCount_le_userPages.mpr hle) he.2.1

end Copy

/-- A kernel of 44 pages above `EXTMEM`. -/
def smallLayout : Layout := ⟨264, 300, by decide, by decide, by decide⟩

/-- A directory with one page of the user. -/
def onePage : Dir where
  frame := 2000
  pde i := if i = 0 then some ⟨2001, fun j => if j = 0 then ⟨2002, PTE_P ||| PTE_W ||| PTE_U⟩ else .zero⟩ else none

/-- `n` frames are free. -/
def memWith (n : Nat) : Mem := ⟨List.range' 1000 n, fun _ => Bytes.zero⟩

theorem memWith_sound {n : Nat} (hn : n ≤ 1000) : (memWith n).Sound smallLayout where
  nodup := List.nodup_range'
  valid f hf := by
    obtain ⟨h₁, h₂⟩ := List.mem_range'_1.mp hf
    have hlast : 1000 + n ≤ PHYSTOP / PGSIZE := by
      unfold PHYSTOP PGSIZE
      omega
    exact ⟨le_trans (by decide) h₁, h₂.trans_le (by simpa using hlast)⟩

theorem onePage_pte_present {p : Nat} (hp : p < 1) : (onePage.pte p).Present := by
  obtain rfl : p = 0 := by omega
  decide

theorem onePage_frame_notMem {n p : Nat} (hn : n ≤ 1000) (hp : p < 1) : (onePage.pte p).frame ∉ (memWith n).free := by
  obtain rfl : p = 0 := by omega
  intro hf
  obtain ⟨-, h⟩ := List.mem_range'_1.mp hf
  change 2002 < 1000 + n at h
  omega

theorem lt_one_of_mul_PGSIZE_lt {p : Nat} (hp : p * PGSIZE < 4096) : p < 1 := by
  unfold PGSIZE at hp
  omega

/-- With 70 frames the page can be copied. -/
theorem copyuvm_copies_onePage : wp (copyuvm smallLayout onePage 4096)
    (fun r m' => (∀ d, r = some d → Duplicate onePage d 4096 (memWith 70) m') ∧
      (r = none → GivenBack onePage 4096 (memWith 70) m')) (fun _ => KERNBASE < 4096) (memWith 70) := by
  rw [copyuvm_copies_iff smallLayout onePage 4096 (memWith 70) (memWith_sound (by decide))
    (fun _ hp => onePage_pte_present (lt_one_of_mul_PGSIZE_lt hp))
    (fun _ hp _ => onePage_frame_notMem (by decide) (lt_one_of_mul_PGSIZE_lt hp))]
  intro k hk hlen
  change 70 = _ at hlen
  unfold NPTENTRIES at hlen
  omega

/-- With 66 frames, one is left when the kernel is set up. It is taken for the page, and
    lost, since there is none for the page table. -/
theorem copyuvm_loses_frame : ∃ m', copyuvm smallLayout onePage 4096 (memWith 66) = .ok (none, m') ∧
    ¬ m'.free.Perm (memWith 66).free := by
  have hone : pageCount 4096 = 1 := by decide
  have huser : 1 ≤ userPages := by
    rw [userPages_eq]
    decide
  have hstrands : Strands (min (pageCount 4096) userPages) (memWith 66).free.length := by
    rw [hone, Nat.min_eq_left huser]
    exact ⟨0, by decide, rfl⟩
  obtain ⟨m', hrun, hlost⟩ := copyuvm_strands (memWith_sound (by decide))
    (fun _ hp => onePage_pte_present (hone ▸ hp)) hstrands
  refine ⟨m', hrun, fun hperm => ?_⟩
  have := hperm.length_eq
  omega

end Xv6.Paging
