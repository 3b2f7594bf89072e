-- SUMMARY: When `exec` fails: before it commits to the new image everything is undone, afterwards nothing.
import Xv6.Memory.Stack

/-! # Failures of exec

Up to the commit a failed `exec` frees the directory that it was building. Then it allocates
the stacks for 64 threads, and if there are too few frames for them, it returns with the new
image in place. Whether `exec` gets there is told by the file, the arguments and the number
of free frames: `FileData.imageSize` is what the program headers ask for, and `framesFor`
is what an image of that size takes.
-/

namespace Xv6.Paging

open Prog

/-! ## What a file asks for -/

namespace FileData

variable (f : FileData)

/-- Page `j` of a segment can be read. -/
def ReadsPage (offset sz j : Nat) : Prop :=
  f.readi ((offset + j * PGSIZE) % 2 ^ 32) (chunk sz (j * PGSIZE)) = some (chunk sz (j * PGSIZE))

instance (offset sz j : Nat) : Decidable (f.ReadsPage offset sz j) := inferInstanceAs (Decidable (_ = _))

/-- A segment can be read. -/
def Loads (offset sz : Nat) : Prop := ∀ j < pageCount sz, f.ReadsPage offset sz j

instance (offset sz : Nat) : Decidable (f.Loads offset sz) := inferInstanceAs (Decidable (∀ j < _, _))

/-- A program header that `exec` accepts when the image has `sz` bytes, and their number
    afterwards. -/
def segmentSize (ph : Proghdr) (sz : Nat) : Option Nat :=
  if ph.memsz < ph.filesz then none
  else if ph.last < ph.vaddr then none
  else if ph.last ≥ KERNBASE then none
  else if max sz ph.last = 0 then none
  else if ph.vaddr % PGSIZE ≠ 0 then none
  else if f.Loads ph.off ph.filesz then some (max sz ph.last)
  else none

/-- The size of the image after `n` more program headers, from offset `off` on. -/
def imageLoop : Nat → Nat → Nat → Option Nat
  | 0, _, sz => some sz
  | n + 1, off, sz =>
    if f.readi off proghdrSize ≠ some proghdrSize then none
    else if (f.proghdr off).type ≠ ELF_PROG_LOAD then imageLoop n ((off + proghdrSize) % 2 ^ 32) sz
    else (f.segmentSize (f.proghdr off) sz).bind (imageLoop n ((off + proghdrSize) % 2 ^ 32))

/-- The size of the image of a program, without its stack. -/
def imageSize : Option Nat :=
  if f.readi 0 elfhdrSize ≠ some elfhdrSize then none
  else if f.magic ≠ ELF_MAGIC then none
  else f.imageLoop f.phnum f.phoff 0

theorem uint_lt (o : Nat) : f.uint o < 2 ^ 32 := UInt32.toNat_lt _

variable {f}

theorem le_of_segmentSize {ph : Proghdr} {sz s : Nat} (h : f.segmentSize ph sz = some s) : sz ≤ s := by
  unfold segmentSize at h
  split_ifs at h
  cases h
  exact le_max_left _ _

theorem le_of_imageLoop {s : Nat} : ∀ {n off sz : Nat}, f.imageLoop n off sz = some s → sz ≤ s := by
  intro n
  induction n with
  | zero =>
    intro off sz h
    cases h
    exact le_rfl
  | succ n ih =>
    intro off sz h
    rw [imageLoop] at h
    split_ifs at h
    · exact ih h
    · obtain ⟨s', hs', hrest⟩ := Option.bind_eq_some_iff.mp h
      exact (le_of_segmentSize hs').trans (ih hrest)

end FileData

/-! ## Segments -/

/-- The first `n` pages are for the user. -/
def AllUser (d : Dir) (n : Nat) : Prop := ∀ q < n, (d.pte q).flags = (PTE_W ||| PTE_U) ||| PTE_P

section Load

variable {L : Layout} {F : List Frame} {f : FileData} {d : Dir} {p : Nat} {m : Mem} {E : Panic → Prop}

theorem Grown.congr {m' : Mem} (h : Grown L F p d m) (hfree : m'.free = m.free) : Grown L F p d m' :=
  { h with accounts := h.accounts.congr (by rw [hfree]) }

theorem wp_loadLoop {addr sz : Nat} (offset : Nat) (hpages : ∀ j < pageCount sz, d.tableAt ((addr / PGSIZE + j) / NPTENTRIES) ≠ none)
    (halign : addr % PGSIZE = 0) : ∀ (n k : Nat) (m : Mem), k + n = pageCount sz →
    wp (loadLoop d f addr offset sz n (k * PGSIZE))
      (fun r m' => m'.free = m.free ∧ (r = true ↔ ∀ j, k ≤ j → j < pageCount sz → f.ReadsPage offset sz j))
      E m := by
  intro n
  induction n with
  | zero =>
    intro k m hk
    rw [loadLoop, wp_pure]
    exact ⟨rfl, iff_of_true rfl fun j h₁ h₂ => by omega⟩
  | succ n ih =>
    intro k m hk
    have hpage : (addr + k * PGSIZE) / PGSIZE = addr / PGSIZE + k := by
      unfold PGSIZE at *
      omega
    obtain ⟨t, ht⟩ := Option.ne_none_iff_exists'.mp (mt Dir.tableAt_eq_none.mpr (hpages k (by omega)))
    rw [loadLoop, hpage, ht]
    dsimp only
    have hread : ∀ r, f.readi ((offset + k * PGSIZE) % 2 ^ 32) (chunk sz (k * PGSIZE)) = r →
        (f.ReadsPage offset sz k ↔ r = some (chunk sz (k * PGSIZE))) := by
      rintro r rfl
      exact Iff.rfl
    cases hr : f.readi ((offset + k * PGSIZE) % 2 ^ 32) (chunk sz (k * PGSIZE)) with
    | none =>
      refine ⟨rfl, iff_of_false Bool.false_ne_true fun hall => ?_⟩
      cases (hread _ hr).mp (hall k le_rfl (by omega))
    | some l =>
      dsimp only
      rw [wp_bind, wp_write]
      split
      · next hne =>
        refine ⟨rfl, iff_of_false Bool.false_ne_true fun hall => hne ?_⟩
        exact Option.some.inj ((hread _ hr).mp (hall k le_rfl (by omega)))
      · next heq =>
        have hnext : k * PGSIZE + PGSIZE = (k + 1) * PGSIZE := by ring
        rw [hnext]
        refine (ih (k + 1) _ (by omega)).post fun r m' hr' => ⟨hr'.1, hr'.2.trans ⟨fun hall j h₁ h₂ => ?_, fun hall j h₁ h₂ => ?_⟩⟩
        · by_cases hjk : j = k
          · subst hjk
            exact (hread _ hr).mpr (congrArg some (not_not.mp heq))
          · exact hall j (by omega) h₂
        · exact hall j (by omega) h₂

/-- A segment is loaded into pages that are there, just if it can be read. -/
theorem wp_loaduvm {addr offset sz : Nat} (hpages : ∀ j < pageCount sz, d.tableAt ((addr / PGSIZE + j) / NPTENTRIES) ≠ none)
    (halign : addr % PGSIZE = 0) : wp (loaduvm d addr f offset sz)
      (fun r m' => m'.free = m.free ∧ (r = true ↔ f.Loads offset sz)) E m := by
  have hloop := @wp_loadLoop f d E addr sz offset hpages halign (pageCount sz) 0 m (Nat.zero_add _)
  rw [Nat.zero_mul] at hloop
  refine hloop.post fun r m' hr => ⟨hr.1, hr.2.trans ⟨fun h j hj => h j (Nat.zero_le j) hj, fun h j _ hj => h j hj⟩⟩

/-- The directory has an image of `sz` bytes, all of them for the user. -/
structure Loading (L : Layout) (F : List Frame) (sz : Nat) (d : Dir) (m : Mem) : Prop where
  lt : sz < KERNBASE
  grown : Grown L F (pageCount sz) d m
  users : AllUser d (pageCount sz)

/-- How the loop over the program headers ends, when the file asks for `s`. -/
def SegmentsEnd (L : Layout) (F : List Frame) (s : Option Nat) (r : Option Nat × Dir) (m : Mem) : Prop :=
  match r.1 with
  | none => Accounts F 0 m r.2 ∧ ∀ sz, s = some sz → F.length < framesFor (pageCount sz)
  | some sz => s = some sz ∧ Loading L F sz r.2 m

/-- The pages of a segment are in the image. -/
theorem segment_page_lt {vaddr filesz memsz s j : Nat} (halign : vaddr % PGSIZE = 0) (hj : j * PGSIZE < filesz)
    (hmem : filesz ≤ memsz) (hs : vaddr + memsz ≤ s) : (vaddr / PGSIZE + j) * PGSIZE < s := by
  rw [Nat.add_mul, Nat.div_mul_cancel (Nat.dvd_of_mod_eq_zero halign)]
  omega

theorem wp_loadSegment (hvalid : ∀ g ∈ F, L.Valid g) {ph : Proghdr} (hvaddr : ph.vaddr < 2 ^ 32)
    (hmemsz : ph.memsz < 2 ^ 32) {sz : Nat} (h : Loading L F sz d m) :
    wp (loadSegment L f ph sz d) (SegmentsEnd L F (f.segmentSize ph sz)) E m := by
  have hbad : ∀ {d m}, Accounts F 0 m d → SegmentsEnd L F none (none, d) m := fun h => ⟨h, fun _ hs => by cases hs⟩
  unfold loadSegment FileData.segmentSize
  split
  · exact hbad h.grown.accounts
  next hmem =>
  split
  · exact hbad h.grown.accounts
  next hwrap =>
  -- The directory has grown, if need be.
  have hrest : ∀ (s : Nat) (d' : Dir) (m' : Mem), s = max sz ph.last → Loading L F s d' m' →
      wp (if s = 0 then pure (none, d')
        else if ph.vaddr % PGSIZE ≠ 0 then pure (none, d')
        else do
          if ← loaduvm d' ph.vaddr f ph.off ph.filesz then pure (some s, d') else pure (none, d'))
        (SegmentsEnd L F (if max sz ph.last = 0 then none
          else if ph.vaddr % PGSIZE ≠ 0 then none
          else if f.Loads ph.off ph.filesz then some (max sz ph.last)
          else none)) E m' := by
    intro s d' m' hs hload
    rw [← hs]
    split
    · exact hbad hload.grown.accounts
    split
    · exact hbad hload.grown.accounts
    next hpos halign =>
    have hlast : ph.last = ph.vaddr + ph.memsz := by
      unfold Proghdr.last at hwrap ⊢
      omega
    have htables : ∀ j < pageCount ph.filesz, d'.tableAt ((ph.vaddr / PGSIZE + j) / NPTENTRIES) ≠ none := by
      intro j hj hnone
      have hle : ph.vaddr + ph.memsz ≤ s := hlast ▸ hs ▸ le_max_right sz ph.last
      have hin : ph.vaddr / PGSIZE + j < pageCount s :=
        lt_pageCount.mpr (segment_page_lt (not_not.mp halign) (lt_pageCount.mp hj) (not_lt.mp hmem) hle)
      have hpres := (hload.grown.present _ (hin.trans_le (pageCount_le_userPages.mpr hload.lt.le))).mpr hin
      rw [Dir.pte_of_none hnone] at hpres
      exact Pte.not_present_zero hpres
    rw [wp_bind]
    refine (wp_loaduvm htables (not_not.mp halign)).post fun r m'' hr => ?_
    have hgrown := hload.grown.congr hr.1
    cases r with
    | false =>
      rw [if_neg fun hl => Bool.false_ne_true (hr.2.mpr hl)]
      exact hbad hgrown.accounts
    | true =>
      rw [if_pos (hr.2.mp rfl)]
      exact ⟨rfl, { hload with grown := hgrown }⟩
  rw [wp_bind]
  refine wp_allocuvm_grown hvalid h.grown (fun hbig => ?_) (fun hless => ?_) (fun d' m' hlt hle hfail => ?_)
    fun d' m' hlt hle hgrown hext => ?_
  · rw [if_pos hbig]
    exact hbad h.grown.accounts
  · have hlt := h.lt
    rw [if_neg (by omega)]
    exact hrest sz d m (Nat.max_eq_left hless.le).symm h
  · rw [if_neg (by omega)]
    refine ⟨hfail.accounts, fun s hs => ?_⟩
    have hs' : s = max sz ph.last := by
      split_ifs at hs
      cases hs
      rfl
    rw [hs', Nat.max_eq_right hle]
    exact hfail.short
  · rw [if_neg (by omega)]
    refine hrest ph.last d' m' (Nat.max_eq_right hle).symm ⟨hlt, hgrown, fun q hq => ?_⟩
    by_cases hold : q < pageCount sz
    · rw [hext.old q (by omega)]
      exact h.users q hold
    · exact hext.new q (by omega) hq

theorem wp_loadSegments (hvalid : ∀ g ∈ F, L.Valid g) : ∀ (n off sz : Nat) (d : Dir) (m : Mem), Loading L F sz d m →
    wp (loadSegments L f n off sz d) (SegmentsEnd L F (f.imageLoop n off sz)) E m := by
  intro n
  induction n with
  | zero =>
    intro off sz d m h
    rw [loadSegments, wp_pure]
    exact ⟨rfl, h⟩
  | succ n ih =>
    intro off sz d m h
    rw [loadSegments, FileData.imageLoop]
    split
    · exact ⟨h.grown.accounts, fun _ hs => by cases hs⟩
    split
    · exact ih _ sz d m h
    rw [wp_bind]
    refine (wp_loadSegment hvalid (FileData.uint_lt _ _) (FileData.uint_lt _ _) h).post fun r m' hr => ?_
    obtain ⟨r, d'⟩ := r
    cases r with
    | none =>
      refine ⟨hr.1, fun s hs => ?_⟩
      obtain ⟨s', hs', hrest⟩ := Option.bind_eq_some_iff.mp hs
      exact (hr.2 s' hs').trans_le (framesFor_le (pageCount_mono (FileData.le_of_imageLoop hrest)))
    | some s =>
      rw [hr.1]
      exact ih _ s d' m' hr.2

/-! ## The stack -/

theorem kmap_perm {k : Kmap} (hk : k ∈ L.kmap) : (k.perm ||| PTE_P) &&& PTE_U = 0 := by
  simp only [Layout.kmap, List.mem_cons, List.not_mem_nil, or_false] at hk
  have hwrite : (PTE_W ||| PTE_P) &&& PTE_U = 0 := by decide
  have hread : ((0 : Flags) ||| PTE_P) &&& PTE_U = 0 := by decide
  rcases hk with rfl | rfl | rfl | rfl
  · exact hwrite
  · exact hread
  · exact hwrite
  · exact hwrite

theorem exists_kmap {q : Nat} (hq : KernelTable (q / NPTENTRIES)) : ∃ k ∈ L.kmap, k.range.1 ≤ q ∧ q < k.range.1 + k.range.2 := by
  have h₁ := L.data_gt
  have h₂ := L.data_lt
  have hrange : ∃ r ∈ L.kmap.map Kmap.range, r.1 ≤ q ∧ q < r.1 + r.2 := by
    rw [kmap_ranges]
    simp only [List.mem_cons, List.not_mem_nil, or_false, exists_eq_or_imp, exists_eq_left]
    unfold KernelTable NPTENTRIES at hq
    unfold EXTMEM PHYSTOP PGSIZE at *
    omega
  obtain ⟨r, hr, hin⟩ := hrange
  obtain ⟨k, hk, rfl⟩ := List.mem_map.mp hr
  exact ⟨k, hk, hin⟩

/-- The user may not access the kernel. -/
theorem Grown.not_user (h : Grown L F p d m) (hp : p ≤ userPages) {q : Nat} (hq : userPages ≤ q) : ¬ d.User q := by
  intro huser
  by_cases hnone : d.tableAt (q / NPTENTRIES) = none
  · have hpres := huser.1
    rw [Dir.pte_of_none hnone] at hpres
    exact Pte.not_present_zero hpres
  · have hkernel : KernelTable (q / NPTENTRIES) := by
      refine ((h.table _).mp hnone).resolve_right fun hlt => ?_
      have := tablesFor_le hp
      rw [userPages_eq] at hq
      unfold NPTENTRIES at hlt
      omega
    obtain ⟨k, hk, h₁, h₂⟩ := exists_kmap hkernel
    have hno := huser.2
    rw [h.kernel k hk q h₁ h₂] at hno
    exact hno (kmap_perm hk)

/-- The flags of a page of the user change, but it stays where it is. -/
theorem Grown.setFlags {q : Nat} {flags : Flags} (h : Grown L F p d m) (hq : q < p) (hp : p ≤ userPages)
    (hpres : (⟨(d.pte q).frame, flags⟩ : Pte).Present) : Grown L F p (d.setPte q ⟨(d.pte q).frame, flags⟩) m := by
  have hold : (d.pte q).Present := (h.present q (by omega)).mpr hq
  have hsome : d.tableAt (q / NPTENTRIES) ≠ none := fun hnone => by
    rw [Dir.pte_of_none hnone] at hold
    exact Pte.not_present_zero hold
  refine ⟨h.accounts.setPte hsome (fun _ => ?_) fun _ => rfl, Dir.setPte_frame.symm ▸ h.first, fun i => ?_,
    fun r hr => ?_, fun k hk r h₁ h₂ => ?_⟩
  · unfold Pte.held
    rw [if_pos hpres, if_pos hold]
  · rw [Dir.tableAt_setPte]
    exact h.table i
  · rw [Dir.pte_setPte hsome]
    split
    · next heq => exact iff_of_true hpres (heq ▸ hq)
    · exact h.present r hr
  · have := (userPages_le_of_mem_kmap hk).trans h₁
    rw [Dir.pte_setPte hsome, if_neg (by omega)]
    exact h.kernel k hk r h₁ h₂

/-- The page below the last one becomes the guard page. -/
theorem wp_clearpteu {n : Nat} {Q : Dir → Mem → Prop} (h : Grown L F n d m) (hn : 2 ≤ n) (huser : n ≤ userPages)
    (hall : AllUser d n) (hQ : ∀ d', Grown L F n d' m → StackDir d' n → Q d' m) :
    wp (clearpteu d (n - 2)) Q E m := by
  have hpres : (d.pte (n - 2)).Present := (h.present _ (by omega)).mpr (by omega)
  obtain ⟨t, hpde, hpte⟩ := Dir.exists_table_of_present hpres
  unfold clearpteu
  rw [hpde]
  dsimp only
  rw [hpte, wp_pure, hall (n - 2) (by omega)]
  have hsome : d.tableAt ((n - 2) / NPTENTRIES) ≠ none := mt Dir.tableAt_eq_none.mp (by simp [hpde])
  have hpage : (((PTE_W ||| PTE_U) ||| PTE_P) &&& ~~~ PTE_U) &&& PTE_P ≠ 0 := by decide
  have hguard : (((PTE_W ||| PTE_U) ||| PTE_P) &&& ~~~ PTE_U) &&& PTE_U = 0 := by decide
  have hgrown := @Grown.setFlags _ _ _ _ _ (n - 2) _ h (by omega) huser hpage
  refine hQ _ hgrown ⟨hn, huser, ⟨?_, ?_⟩, fun hu => ?_, fun q hq => hgrown.not_user huser hq⟩
  · exact (hgrown.present _ (by omega)).mpr (by omega)
  · rw [Dir.pte_setPte hsome, if_neg (by omega), hall (n - 1) (by omega)]
    decide
  · have hno := hu.2
    rw [Dir.pte_setPte hsome, if_pos rfl] at hno
    exact hno hguard

/-! ## The commit -/

/-- With `free` frames, `exec` commits to an image of `usz` bytes, the stack included. -/
def Commits (ip : Option FileData) (argv : List Arg) (free usz : Nat) : Prop :=
  ∃ f sz, ip = some f ∧ f.imageSize = some sz ∧ usz = PGROUNDUP sz + 2 * PGSIZE ∧ usz < KERNBASE ∧
    framesFor (pageCount usz) ≤ free ∧ PushFits argv

/-- How `exec` gets to the commit, or not. -/
def LoadEnds (L : Layout) (F : List Frame) (ip : Option FileData) (argv : List Arg) : Option Program → Mem → Prop
  | none, m => m.free.Perm F ∧ ∀ usz, ¬ Commits ip argv F.length usz
  | some g, m => Commits ip argv F.length g.usz ∧ Grown L F (pageCount g.usz) g.dir m

theorem wp_giveUp {ip : Option FileData} {argv : List Arg} (hvalid : ∀ g ∈ F, L.Valid g)
    (h : Accounts F 0 m d) (hno : ∀ usz, ¬ Commits ip argv F.length usz) :
    wp (giveUp L d) (LoadEnds L F ip argv) E m := by
  have hvalid' : ∀ g ∈ (F : Multiset Frame), L.Valid g := fun g hg => hvalid g (Multiset.mem_coe.mp hg)
  unfold giveUp
  rw [wp_bind]
  refine (wp_freevm hvalid' h).post fun _ m' hm => ?_
  rw [wp_pure]
  have hback := hm.1
  rw [zero_add] at hback
  exact ⟨Multiset.coe_eq_coe.mp hback, hno⟩

theorem pageCount_PGROUNDUP (sz : Nat) : pageCount (PGROUNDUP sz) = pageCount sz := by
  unfold pageCount PGROUNDUP PGSIZE
  omega

theorem pageCount_stack (sz : Nat) : pageCount (PGROUNDUP sz + 2 * PGSIZE) = pageCount sz + 2 := by
  unfold pageCount PGROUNDUP PGSIZE
  omega

/-- What `exec` asks for is told by the file. -/
theorem not_commits {free : Nat} {argv : List Arg} (h : ∀ sz, f.imageSize = some sz →
    PGROUNDUP sz + 2 * PGSIZE < KERNBASE → framesFor (pageCount sz + 2) ≤ free → ¬ PushFits argv) (usz : Nat) :
    ¬ Commits (some f) argv free usz := by
  rintro ⟨f', sz, hip, hsize, rfl, hlt, hframes, hfits⟩
  cases hip
  rw [pageCount_stack] at hframes
  exact h sz hsize hlt hframes hfits

theorem wp_addStack {sz : Nat} (argv : List Arg) (hvalid : ∀ g ∈ F, L.Valid g) (hsize : f.imageSize = some sz)
    (h : Loading L F sz d m) :
    wp (addStack L f argv sz d) (LoadEnds L F (some f) argv) (fun _ => ¬ PushFits argv) m := by
  have hone : ∀ sz', f.imageSize = some sz' → sz' = sz := fun sz' h => Option.some.inj (h.symm.trans hsize)
  have hgrown : Grown L F (pageCount (PGROUNDUP sz)) d m := by
    rw [pageCount_PGROUNDUP]
    exact h.grown
  unfold addStack
  rw [wp_bind]
  refine wp_allocuvm_grown hvalid hgrown (fun hbig => ?_) (fun hless => ?_) (fun d' m' hlt _ hfail => ?_)
    fun d' m' hlt _ hgrown' hext => ?_
  · dsimp only
    rw [if_pos rfl]
    refine wp_giveUp hvalid h.grown.accounts (not_commits fun sz' hsz' hlt => ?_)
    rw [hone sz' hsz'] at hlt
    omega
  · omega
  · dsimp only
    rw [if_pos rfl]
    refine wp_giveUp hvalid hfail.accounts (not_commits fun sz' hsz' _ hframes => ?_)
    have hshort := hfail.short
    rw [pageCount_stack] at hshort
    rw [hone sz' hsz'] at hframes
    omega
  · have husers : AllUser d' (pageCount sz + 2) := by
      intro q hq
      by_cases hold : q < pageCount sz
      · rw [hext.old q (by rw [pageCount_PGROUNDUP]; omega)]
        exact h.users q hold
      · rw [pageCount_PGROUNDUP, pageCount_stack] at hext
        exact hext.new q (by omega) hq
    have hlast : pageCount sz + 2 ≤ userPages := by
      rw [← pageCount_stack]
      exact pageCount_le_userPages.mpr hlt.le
    have hguard : (PGROUNDUP sz + 2 * PGSIZE - 2 * PGSIZE) / PGSIZE = pageCount sz + 2 - 2 := by
      rw [Nat.add_sub_cancel, PGROUNDUP_eq, Nat.mul_div_cancel _ (by decide), Nat.add_sub_cancel]
    have hsize' : PGROUNDUP sz + 2 * PGSIZE = (pageCount sz + 2) * PGSIZE := by
      rw [PGROUNDUP_eq, Nat.add_mul]
    rw [pageCount_stack] at hgrown'
    dsimp only
    rw [if_neg (by unfold PGSIZE; omega), wp_bind, hguard]
    refine wp_clearpteu hgrown' (by omega) hlast husers fun d'' hgrown'' hstack => ?_
    rw [wp_bind, hsize']
    refine (wp_pushStack hstack argv m').mono (fun r m'' hr => ?_) fun _ he => he
    obtain ⟨hfree, hbad, hgood⟩ := hr
    have hgrown₂ := hgrown''.congr hfree
    cases r with
    | none => exact wp_giveUp hvalid hgrown₂.accounts (not_commits fun _ _ _ _ => hbad rfl)
    | some sp =>
      have hpages : pageCount ((pageCount sz + 2) * PGSIZE) = pageCount sz + 2 := by rw [← hsize', pageCount_stack]
      have hlen := hgrown₂.length hlast
      refine ⟨⟨f, sz, rfl, hsize, hsize'.symm, hsize' ▸ hlt, ?_, hgood sp rfl⟩, ?_⟩
      · dsimp only
        rw [hpages]
        omega
      · dsimp only
        rw [hpages]
        exact hgrown₂

theorem wp_loadProgram (ip : Option FileData) (argv : List Arg) (hm : m.Sound L) :
    wp (loadProgram L ip argv) (LoadEnds L m.free ip argv) (fun _ => ¬ PushFits argv) m := by
  have hvalid := hm.valid
  cases ip with
  | none =>
    refine ⟨.refl _, ?_⟩
    rintro usz ⟨f, sz, hip, -⟩
    cases hip
  | some f =>
    unfold loadProgram
    dsimp only
    split
    · next hread =>
      refine ⟨.refl _, not_commits fun sz hsize => ?_⟩
      rw [FileData.imageSize, if_pos hread] at hsize
      cases hsize
    next hread =>
    split
    · next hmagic =>
      refine ⟨.refl _, not_commits fun sz hsize => ?_⟩
      rw [FileData.imageSize, if_neg hread, if_pos hmagic] at hsize
      cases hsize
    next hmagic =>
    have himage : f.imageSize = f.imageLoop f.phnum f.phoff 0 := by
      rw [FileData.imageSize, if_neg hread, if_neg hmagic]
    rw [wp_bind]
    refine wp_setupkvm hvalid (fun m' hback _ hshort => ?_) fun d m' _ hacc hfirst hnew => ?_
    · refine ⟨Multiset.coe_eq_coe.mp hback, not_commits fun sz _ _ hframes => ?_⟩
      unfold framesFor at hframes
      omega
    dsimp only
    rw [wp_bind]
    have hzero : pageCount 0 = 0 := by decide
    have hstart : Grown L m.free (pageCount 0) d m' := hzero ▸ Grown.new hnew hacc hfirst
    refine (wp_loadSegments hvalid f.phnum f.phoff 0 d m' ⟨by decide, hstart, fun q hq => ?_⟩).post fun r m₁ hr => ?_
    · rw [hzero] at hq
      omega
    obtain ⟨r, d₁⟩ := r
    rw [← himage] at hr
    cases r with
    | none =>
      refine wp_giveUp hvalid hr.1 (not_commits fun sz hsize _ hframes => ?_)
      have := hr.2 sz hsize
      have hle : framesFor (pageCount sz) ≤ framesFor (pageCount sz + 2) := framesFor_le (by omega)
      omega
    | some sz =>
      dsimp only
      exact wp_addStack argv hvalid hr.1 hr.2

theorem Commits.unique {ip : Option FileData} {argv : List Arg} {free usz usz' : Nat} (h : Commits ip argv free usz)
    (h' : Commits ip argv free usz') : usz = usz' := by
  obtain ⟨f, sz, hip, hsize, rfl, -⟩ := h
  obtain ⟨f', sz', hip', hsize', rfl, -⟩ := h'
  cases hip.symm.trans hip'
  cases hsize.symm.trans hsize'
  rfl

theorem Commits.pushFits {ip : Option FileData} {argv : List Arg} {free usz : Nat} (h : Commits ip argv free usz) :
    PushFits argv := by
  obtain ⟨f, sz, -, -, -, -, -, hfits⟩ := h
  exact hfits

theorem Commits.pos {ip : Option FileData} {argv : List Arg} {free usz : Nat} (h : Commits ip argv free usz) :
    0 < usz ∧ usz < KERNBASE := by
  obtain ⟨f, sz, -, -, rfl, hlt, -⟩ := h
  exact ⟨Nat.add_pos_right _ (by decide), hlt⟩

/-! ## Stacks for threads -/

/-- With `free` frames an image of `usz` bytes gets `n` stacks for threads. -/
def StacksFit (free usz n : Nat) : Prop :=
  usz + n * (2 * PGSIZE) < KERNBASE ∧ framesFor (pageCount (usz + n * (2 * PGSIZE))) ≤ free

instance (free usz n : Nat) : Decidable (StacksFit free usz n) := inferInstanceAs (Decidable (_ ∧ _))

theorem stacksFit_succ {free usz n : Nat} : StacksFit free usz (n + 1) ↔ StacksFit free (usz + 2 * PGSIZE) n := by
  unfold StacksFit
  rw [show usz + (n + 1) * (2 * PGSIZE) = usz + 2 * PGSIZE + n * (2 * PGSIZE) by ring]

theorem wp_stackLoop (hvalid : ∀ g ∈ F, L.Valid g) : ∀ (n usz k : Nat) (d : Dir) (m : Mem), 0 < usz → usz < KERNBASE →
    Grown L F (pageCount usz) d m →
    wp (stackLoop L n usz k d) (fun r m' => (r.1 = 0 → ¬ StacksFit F.length usz n ∧ Accounts F 0 m' r.2.2) ∧
      (r.1 ≠ 0 → StacksFit F.length usz n ∧ Grown L F (pageCount (usz + n * (2 * PGSIZE))) r.2.2 m')) E m := by
  intro n
  induction n with
  | zero =>
    intro usz k d m hpos hlt h
    have hlen := h.length (pageCount_le_userPages.mpr hlt.le)
    rw [stackLoop, wp_pure]
    refine ⟨fun hzero => absurd hzero hpos.ne', fun _ => ?_⟩
    unfold StacksFit
    rw [Nat.zero_mul, Nat.add_zero]
    exact ⟨⟨hlt, by omega⟩, h⟩
  | succ n ih =>
    intro usz k d m hpos hlt h
    rw [stackLoop, wp_bind]
    refine wp_allocuvm_grown hvalid h (fun hbig => ?_) (fun hless => ?_) (fun d' m' hlt' _ hfail => ?_)
      fun d' m' hlt' _ hgrown _ => ?_
    · dsimp only
      rw [if_pos rfl, wp_pure]
      refine ⟨fun _ => ⟨fun hfit => ?_, h.accounts⟩, fun hne => absurd rfl hne⟩
      have := (stacksFit_succ.mp hfit).1
      omega
    · omega
    · dsimp only
      rw [if_pos rfl, wp_pure]
      refine ⟨fun _ => ⟨fun hfit => ?_, hfail.accounts⟩, fun hne => absurd rfl hne⟩
      have hshort := hfail.short
      have hframes := (stacksFit_succ.mp hfit).2
      have hle : framesFor (pageCount (usz + 2 * PGSIZE)) ≤
          framesFor (pageCount (usz + 2 * PGSIZE + n * (2 * PGSIZE))) := framesFor_le (pageCount_mono (Nat.le_add_right _ _))
      omega
    · dsimp only
      rw [if_neg (by omega)]
      refine (ih (usz + 2 * PGSIZE) (k + 1) d' m' (by omega) hlt' hgrown).post fun r m'' hr => ?_
      rw [stacksFit_succ, show usz + (n + 1) * (2 * PGSIZE) = usz + 2 * PGSIZE + n * (2 * PGSIZE) by ring]
      exact hr

end Load

end Xv6.Paging

namespace Xv6.Host

open Prog
open Paging (Dir Layout Mem FileData Arg Commits StacksFit)

section Exec

variable {L : Layout} {c : Slot} {path : List UInt8} {ip : Option FileData} {argv : List Arg} {im : Image} {x : Host}

end Exec

/-- An ELF file without segments. -/
def emptyProgram : FileData where
  size := 52
  bytes i := if i = 0 then 0x7F else if i = 1 then 0x45 else if i = 2 then 0x4C else if i = 3 then 0x46 else 0

theorem emptyProgram_commits {free : Nat} (h : 68 ≤ free) : Commits (some emptyProgram) [] free 8192 :=
  ⟨emptyProgram, 0, rfl, by decide, by decide, by decide, h, by decide⟩

end Xv6.Host
