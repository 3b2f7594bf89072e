-- SUMMARY: Pushing the arguments of a program: it succeeds just if they fit into one page.
import Xv6.Memory.Program

/-! # The first stack of a program

`exec` copies the arguments below the end of the image. There is one page for them, and
below it the guard page, which the user cannot access. So `copyout` succeeds just if the
arguments fit into the page. It writes to pages of the user only, and takes no frames.
-/

namespace Xv6.Paging

open Prog

/-- The user may access page `p`. -/
def Dir.User (d : Dir) (p : Nat) : Prop := (d.pte p).Present ∧ (d.pte p).flags &&& PTE_U ≠ 0

section Copyout

variable {d : Dir} {m : Mem} {E : Panic → Prop}

@[simp] theorem wp_write {g : Frame} {o n : Nat} {src : Bytes} {Q : Unit → Mem → Prop} :
    wp (write g o n src) Q E m ↔
      Q () { m with bytes := Function.update m.bytes g ((m.bytes g).splice o n src) } := Iff.rfl

theorem wp_uva2ka {p : Nat} {Q : Option Frame → Mem → Prop} (hyes : d.User p → Q (some (d.pte p).frame) m)
    (hno : ¬ d.User p → Q none m) (hE : ¬ d.User p → E .nullPte) : wp (uva2ka d p) Q E m := by
  unfold Dir.User Dir.pte at *
  unfold uva2ka
  cases hpde : d.pde (p / NPTENTRIES) with
  | none =>
    rw [hpde] at hE
    exact hE fun h => Pte.not_present_zero h.1
  | some t =>
    rw [hpde] at hyes hno
    dsimp only at hyes hno ⊢
    split
    · next h => exact hno fun hu => hu.1 h
    · next h =>
      split
      · next h' => exact hno fun hu => hu.2 h'
      · next h' => exact hyes ⟨h, h'⟩

/-- Within a page of the user. -/
theorem wp_copyout_within {va p : Nat} {data : List UInt8} (hp : va / PGSIZE = p) (huser : d.User p)
    (hroom : va % PGSIZE + data.length ≤ PGSIZE) :
    wp (copyout d va data) (fun r m' => r = true ∧ m'.free = m.free) E m := by
  rw [copyout]
  split
  · exact ⟨rfl, rfl⟩
  · rw [wp_bind, hp]
    refine wp_uva2ka (fun _ => ?_) (fun hno => absurd huser hno) fun hno => absurd huser hno
    have hall : data.drop (min (PGSIZE - va % PGSIZE) data.length) = [] := by
      rw [List.drop_eq_nil_iff]
      omega
    dsimp only
    rw [wp_bind, wp_write, hall, copyout, dif_pos rfl]
    exact ⟨rfl, rfl⟩

/-- A page that the user may not access is in the way. -/
theorem wp_copyout_blocked (hE : E .nullPte) : ∀ (data : List UInt8) (va j : Nat) (m : Mem), va < 2 ^ 32 →
    j < data.length → ¬ d.User ((va + j) % 2 ^ 32 / PGSIZE) →
    wp (copyout d va data) (fun r m' => r = false ∧ m'.free = m.free) E m := by
  intro data
  induction hlen : data.length using Nat.strong_induction_on generalizing data with
  | _ len ih =>
    intro va j m hva hj hblock
    have hne : data ≠ [] := by
      rintro rfl
      rw [List.length_nil] at hlen
      omega
    rw [copyout, dif_neg hne, wp_bind]
    refine wp_uva2ka (fun huser => ?_) (fun _ => ⟨rfl, rfl⟩) fun _ => hE
    -- The page is further on, so it is not in this round.
    have hfar : PGSIZE - va % PGSIZE ≤ j := by
      by_contra hnear
      have hsame : (va + j) % 2 ^ 32 / PGSIZE = va / PGSIZE := by
        unfold PGSIZE at *
        omega
      rw [hsame] at hblock
      exact hblock huser
    have hmin : min (PGSIZE - va % PGSIZE) data.length = PGSIZE - va % PGSIZE := by omega
    have hnext : ((va / PGSIZE + 1) * PGSIZE % 2 ^ 32 + (j - (PGSIZE - va % PGSIZE))) % 2 ^ 32 = (va + j) % 2 ^ 32 := by
      unfold PGSIZE at *
      omega
    dsimp only
    rw [wp_bind, wp_write, hmin]
    refine (ih _ ?_ (data.drop (PGSIZE - va % PGSIZE)) rfl _ (j - (PGSIZE - va % PGSIZE)) _ (Nat.mod_lt _ (by decide)) ?_
      ?_).post fun r m' hr => hr
    · rw [List.length_drop]
      unfold PGSIZE at *
      omega
    · rw [List.length_drop]
      omega
    · rwa [hnext]

end Copyout

/-- The last of `n` pages is for the stack, and the one below it guards it. -/
structure StackDir (d : Dir) (n : Nat) : Prop where
  two_le : 2 ≤ n
  le_user : n ≤ userPages
  top : d.User (n - 1)
  guard : ¬ d.User (n - 2)
  kernel : ∀ q, userPages ≤ q → ¬ d.User q

/-- The next multiple of 4. -/
def round4 (n : Nat) : Nat := (n + 3) / 4 * 4

section Push

variable {d : Dir} {n : Nat} {m : Mem} {E : Panic → Prop}

/-- Something is pushed, when `used` bytes of the page are. -/
theorem wp_push (hd : StackDir d n) {used : Nat} {data : List UInt8} {Q : Bool → Mem → Prop} (hused : used ≤ PGSIZE)
    (halign : used % 4 = 0) (hpos : 0 < data.length) (hshort : data.length ≤ KERNBASE)
    (hfits : used + round4 data.length ≤ PGSIZE → ∀ m', m'.free = m.free → Q true m')
    (hfull : ¬ used + round4 data.length ≤ PGSIZE → ∀ m', m'.free = m.free → Q false m')
    (hE : ¬ used + round4 data.length ≤ PGSIZE → E .nullPte) :
    wp (copyout d (below (n * PGSIZE - used) data.length / 4 * 4) data) Q E m := by
  have h2 := hd.two_le
  have huser := hd.le_user
  rw [userPages_eq] at huser
  by_cases hroom : used + round4 data.length ≤ PGSIZE
  · have hsp : below (n * PGSIZE - used) data.length / 4 * 4 = (n - 1) * PGSIZE + (PGSIZE - used - round4 data.length) := by
      unfold below round4 PGSIZE KERNBASE at *
      omega
    have hpage : ((n - 1) * PGSIZE + (PGSIZE - used - round4 data.length)) / PGSIZE = n - 1 := by
      unfold round4 PGSIZE at *
      omega
    have hoff : ((n - 1) * PGSIZE + (PGSIZE - used - round4 data.length)) % PGSIZE + data.length ≤ PGSIZE := by
      unfold round4 PGSIZE at *
      omega
    rw [hsp]
    exact (wp_copyout_within hpage hd.top hoff).post fun r m' hr => hr.1 ▸ hfits hroom m' hr.2
  · have hblocked : ∃ va j, below (n * PGSIZE - used) data.length / 4 * 4 = va ∧ va < 2 ^ 32 ∧ j < data.length ∧
        ¬ d.User ((va + j) % 2 ^ 32 / PGSIZE) := by
      by_cases hwrap : round4 data.length ≤ n * PGSIZE - used
      · -- The last byte below the page that is written to is in the guard page.
        have hva : below (n * PGSIZE - used) data.length / 4 * 4 = n * PGSIZE - used - round4 data.length := by
          unfold below round4 PGSIZE KERNBASE at *
          omega
        refine ⟨_, min (data.length - 1) (used + round4 data.length - PGSIZE - 1), hva, ?_, ?_, ?_⟩
        · unfold PGSIZE at *
          omega
        · omega
        · have hpage : (n * PGSIZE - used - round4 data.length +
              min (data.length - 1) (used + round4 data.length - PGSIZE - 1)) % 2 ^ 32 / PGSIZE = n - 2 := by
            unfold round4 PGSIZE at *
            omega
          rw [hpage]
          exact hd.guard
      · -- The address has wrapped around, to one of the kernel's.
        refine ⟨_, 0, rfl, ?_, hpos, hd.kernel _ ?_⟩
        · unfold below
          omega
        · rw [userPages_eq]
          unfold below round4 PGSIZE KERNBASE at *
          omega
    obtain ⟨va, j, hva, hlt, hj, hblock⟩ := hblocked
    rw [hva]
    exact (wp_copyout_blocked (hE hroom) data va j m hlt hj hblock).post fun r m' hr => hr.1 ▸ hfull hroom m' hr.2

/-- The bytes that strings take on the stack. -/
def argBytes (argv : List Arg) : Nat := (argv.map fun a => round4 (a.bytes.length + 1)).sum

/-- The strings fit, when there are `argc` already and `used` bytes are. -/
def ArgsFit (argv : List Arg) (argc used : Nat) : Prop :=
  argc + argv.length ≤ MAXARG ∧ used + argBytes argv ≤ PGSIZE

theorem wp_pushArgs (hd : StackDir d n) : ∀ (argv : List Arg) (argc used : Nat) (ustack : List Nat) (m : Mem),
    used ≤ PGSIZE → used % 4 = 0 → argc ≤ MAXARG →
    wp (pushArgs d argv argc (n * PGSIZE - used) ustack)
      (fun r m' => m'.free = m.free ∧ (r = none → ¬ ArgsFit argv argc used) ∧
        ∀ sp us, r = some (sp, us) → ArgsFit argv argc used ∧ sp = n * PGSIZE - (used + argBytes argv) ∧
          us.length = ustack.length + argv.length)
      (fun _ => ¬ ArgsFit argv argc used) m := by
  intro argv
  induction argv with
  | nil =>
    intro argc used ustack m hused _ hargc
    rw [pushArgs, wp_pure]
    refine ⟨rfl, fun h => (by cases h), fun sp us h => ?_⟩
    cases h
    exact ⟨⟨hargc, hused⟩, rfl, rfl⟩
  | cons a argv ih =>
    intro argc used ustack m hused halign hargc
    have hbytes : argBytes (a :: argv) = round4 (a.bytes.length + 1) + argBytes argv := List.sum_cons
    have hshort := a.short
    have hlen : (a.bytes ++ [0]).length = a.bytes.length + 1 := by simp
    rw [pushArgs]
    split
    · next hmax =>
      rw [wp_pure]
      refine ⟨rfl, fun _ hfit => ?_, fun sp us h => (by cases h)⟩
      have := hfit.1
      rw [List.length_cons] at this
      omega
    · next hmax =>
      rw [wp_bind, ← hlen]
      refine wp_push hd hused halign (by omega) (by omega) (fun hroom m' hm => ?_) (fun hroom m' hm => ?_) fun hroom hfit => ?_
      · rw [if_pos rfl]
        rw [hlen] at hroom ⊢
        have hround : round4 (a.bytes.length + 1) % 4 = 0 := Nat.mul_mod_left _ _
        have hsp : below (n * PGSIZE - used) (a.bytes.length + 1) / 4 * 4 =
            n * PGSIZE - (used + round4 (a.bytes.length + 1)) := by
          have h2 := hd.two_le
          have huser := hd.le_user
          rw [userPages_eq] at huser
          unfold below round4 PGSIZE KERNBASE at *
          omega
        rw [hsp]
        have hfit : ArgsFit argv (argc + 1) (used + round4 (a.bytes.length + 1)) ↔ ArgsFit (a :: argv) argc used := by
          unfold ArgsFit
          rw [hbytes, List.length_cons]
          omega
        refine (ih (argc + 1) _ _ m' hroom (by omega) (by omega)).mono (fun r m'' hr => ?_) fun e he => mt hfit.mpr he
        refine ⟨hr.1.trans hm, fun h => mt hfit.mpr (hr.2.1 h), fun sp us h => ?_⟩
        obtain ⟨h₁, h₂, h₃⟩ := hr.2.2 sp us h
        refine ⟨hfit.mp h₁, ?_, ?_⟩
        · rw [h₂, hbytes, Nat.add_assoc]
        · rw [h₃, List.length_append, List.length_cons, List.length_cons, List.length_nil]
          omega
      · rw [if_neg Bool.false_ne_true, wp_pure]
        refine ⟨hm, fun _ hfit => hroom ?_, fun sp us h => (by cases h)⟩
        have := hfit.2
        rw [hlen]
        omega
      · have := hfit.2
        rw [hlen] at hroom
        omega

/-- Strings, pointers to them, and three words more fit into a page. -/
def PushFits (argv : List Arg) : Prop :=
  argv.length ≤ MAXARG ∧ argBytes argv + 4 * (argv.length + 4) ≤ PGSIZE

instance (argv : List Arg) : Decidable (PushFits argv) := inferInstanceAs (Decidable (_ ∧ _))

theorem length_wordBytes (ws : List Nat) : (wordBytes ws).length = 4 * ws.length := by
  induction ws with
  | nil => rfl
  | cons w ws ih =>
    unfold wordBytes at *
    rw [List.flatMap_cons, List.length_append, ih, List.length_map, List.length_range, List.length_cons]
    omega

theorem round4_mul (k : Nat) : round4 (4 * k) = 4 * k := by
  unfold round4
  omega

theorem argBytes_mod (argv : List Arg) : argBytes argv % 4 = 0 := by
  induction argv with
  | nil => rfl
  | cons a argv ih =>
    have hbytes : argBytes (a :: argv) = round4 (a.bytes.length + 1) + argBytes argv := List.sum_cons
    have hround : round4 (a.bytes.length + 1) % 4 = 0 := Nat.mul_mod_left _ _
    omega

/-- The arguments are pushed just if they fit. -/
theorem wp_pushStack (hd : StackDir d n) (argv : List Arg) (m : Mem) :
    wp (pushStack d (n * PGSIZE) argv)
      (fun r m' => m'.free = m.free ∧ (r = none → ¬ PushFits argv) ∧ (∀ sp, r = some sp → PushFits argv))
      (fun _ => ¬ PushFits argv) m := by
  have hsub : PushFits argv → ArgsFit argv 0 0 := by
    intro h
    exact ⟨by have := h.1; omega, by have := h.2; omega⟩
  have hpush := wp_pushArgs hd argv 0 0 [] m (Nat.zero_le _) rfl (Nat.zero_le _)
  rw [Nat.sub_zero] at hpush
  unfold pushStack
  rw [wp_bind]
  refine hpush.mono (fun r m' hr => ?_) fun _ he => mt hsub he
  obtain ⟨hfree, hbad, hgood⟩ := hr
  cases r with
  | none =>
    rw [wp_pure]
    exact ⟨hfree, fun _ => mt hsub (hbad rfl), fun sp h => (by cases h)⟩
  | some r =>
    obtain ⟨sp, us⟩ := r
    obtain ⟨⟨hargc, hroom⟩, hsp, hus⟩ := hgood sp us rfl
    rw [List.length_nil, Nat.zero_add] at hus
    rw [Nat.zero_add] at hargc hroom hsp
    dsimp only
    rw [hus, hsp]
    have hlen : (wordBytes (0xffffffff :: argv.length :: below (n * PGSIZE - argBytes argv) ((argv.length + 1) * 4) :: us
        ++ [0])).length = 4 * (argv.length + 4) := by
      rw [length_wordBytes]
      simp only [List.length_append, List.length_cons, List.length_nil, hus]
    have haddr : below (n * PGSIZE - argBytes argv) ((3 + argv.length + 1) * 4) =
        below (n * PGSIZE - argBytes argv) (4 * (argv.length + 4)) / 4 * 4 := by
      have hmod := argBytes_mod argv
      unfold below PGSIZE MAXARG at *
      omega
    have hfits : argBytes argv + round4 (4 * (argv.length + 4)) ≤ PGSIZE ↔ PushFits argv := by
      rw [round4_mul]
      exact (and_iff_right hargc).symm
    rw [← hlen] at haddr hfits
    rw [wp_bind, haddr]
    refine wp_push hd hroom (argBytes_mod argv) (by omega) ?_ (fun hin m'' hm => ?_) (fun hin m'' hm => ?_) fun hin => ?_
    · rw [hlen]
      unfold MAXARG at hargc
      unfold KERNBASE
      omega
    · exact ⟨hm.trans hfree, fun h => (by cases h), fun _ _ => hfits.mp hin⟩
    · exact ⟨hm.trans hfree, fun _ => mt hfits.mpr hin, fun _ h => (by cases h)⟩
    · exact mt hfits.mpr hin

end Push

end Xv6.Paging
