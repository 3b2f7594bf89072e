-- SUMMARY: What itrunc does: it frees exactly the blocks of one file, each of them once.
import Xv6.FileSystem.ReadWrite

/-! # Truncation

`itrunc` clears the free map bits of a tree while its tables still point to the
blocks. `Fs.Freed s t k F` describes the states on the way: `t` is `s` with the
blocks on the paths `F` of the tree `k` freed. No block is on two paths, so every
block `itrunc` comes to is still marked. When the root pointer is cleared, the
ownership invariant holds again.
-/

namespace Xv6

open Prog

/-! ## The recursion behind the loops -/

/-- Free the blocks below the table in block `a`, which has `d` levels under it. -/
def freeBelow : Nat → UInt32 → FS Unit
  | 0, _     => pure ()
  | d + 1, a => forEntries a fun b => do
    freeBelow d b
    bfree b.toNat

/-- The nested loops of `itrunc` are one recursion on the depth of the tree. -/
theorem itrunc_eq (ip : InodePtr) :
    itrunc ip = (do
      (List.finRange NDIRECT).forM fun i => truncAddr ip (i.castLE (by decide)) (freeBelow 0)
      truncAddr ip 10 (freeBelow 1)
      truncAddr ip 11 (freeBelow 2)
      truncAddr ip 12 (freeBelow 3)
      imodify ip fun x => { x with size := 0 }
      iupdate ip) := by
  simp only [itrunc, freeBelow, pure_bind]

namespace Fs

/-! ## Partly freed trees -/

/-- Block `b` is on one of the paths `F` of the tree `k`. -/
def OnPath (s : Fs) (k : Nat × Fin NADDRS) (F : List Nat → Prop) (b : Nat) : Prop :=
  ∃ js, F js ∧ blockShape.Path k js ∧ s.forest.node k js ≠ 0 ∧ (s.forest.node k js).toNat = b

/-- `t` is `s` with the blocks on the paths `F` of the tree `k` freed. -/
structure Freed (s t : Fs) (k : Nat × Fin NADDRS) (F : List Nat → Prop) : Prop where
  sb : t.sb = s.sb
  devsw : t.devsw = s.devsw
  icache : t.icache = s.icache
  data : ∀ b, ¬ s.sb.IsMeta b → t.disk b = s.disk b
  sbDisk : t.disk SBLOCK = s.disk SBLOCK
  dinode : ∀ j < s.sb.ninodes, t.dinode j = s.dinode j
  used : ∀ b < s.sb.size, t.used b = true ↔ s.used b = true ∧ ¬ s.OnPath k F b
  log : ∃ ws, t.log = s.log.absorbAll ws ∧ ∀ x, x ∈ ws.map Prod.fst ↔ ∃ b, s.OnPath k F b ∧ x = s.sb.BBLOCK b

theorem Freed.refl (s : Fs) (k : Nat × Fin NADDRS) : Freed s s k fun _ => False where
  sb := rfl
  devsw := rfl
  icache := rfl
  data := fun _ _ => rfl
  sbDisk := rfl
  dinode := fun _ _ => rfl
  used := fun b _ => by simp [OnPath]
  log := ⟨[], rfl, by simp [OnPath]⟩

theorem OnPath.congr {s : Fs} {k : Nat × Fin NADDRS} {F G : List Nat → Prop}
    (h : ∀ js, blockShape.Path k js → s.forest.node k js ≠ 0 → (F js ↔ G js)) (b : Nat) :
    s.OnPath k F b ↔ s.OnPath k G b := by
  constructor
  · rintro ⟨js, hF, hp, hne, hb⟩
    exact ⟨js, (h js hp hne).mp hF, hp, hne, hb⟩
  · rintro ⟨js, hG, hp, hne, hb⟩
    exact ⟨js, (h js hp hne).mpr hG, hp, hne, hb⟩

/-- Only paths with a block at the end matter. -/
theorem Freed.congr {s t : Fs} {k : Nat × Fin NADDRS} {F G : List Nat → Prop} (f : Freed s t k F)
    (h : ∀ js, blockShape.Path k js → s.forest.node k js ≠ 0 → (F js ↔ G js)) : Freed s t k G where
  sb := f.sb
  devsw := f.devsw
  icache := f.icache
  data := f.data
  sbDisk := f.sbDisk
  dinode := f.dinode
  used := fun b hb => by rw [f.used b hb, OnPath.congr h]
  log := by
    obtain ⟨ds, hlog, hds⟩ := f.log
    refine ⟨ds, hlog, fun x => ?_⟩
    simp only [hds, OnPath.congr h]

/-- One more block is freed. -/
theorem Freed.free {s t : Fs} {k : Nat × Fin NADDRS} {F : List Nat → Prop} (h : s.Wf)
    (f : Freed s t k F) {js : List Nat} (hp : blockShape.Path k js)
    (hne : s.forest.node k js ≠ 0) :
    Freed s (t.free (s.forest.node k js).toNat) k (fun ls => F ls ∨ ls = js) := by
  obtain ⟨hlt, -, -⟩ := h.owned hp hne
  have hbm : s.sb.IsMeta (s.sb.BBLOCK (s.forest.node k js).toNat) := h.sbWf.BBLOCK_isMeta hlt
  have hdisk : ∀ b, b ≠ s.sb.BBLOCK (s.forest.node k js).toNat →
      (t.free (s.forest.node k js).toNat).disk b = t.disk b := by
    intro b hb
    refine free_disk_ne t ?_
    rw [f.sb]
    exact hb
  have hsplit : ∀ b, s.OnPath k (fun ls => F ls ∨ ls = js) b ↔
      s.OnPath k F b ∨ b = (s.forest.node k js).toNat := by
    intro b
    constructor
    · rintro ⟨ls, hF | rfl, hp', hne', rfl⟩
      · exact .inl ⟨ls, hF, hp', hne', rfl⟩
      · exact .inr rfl
    · rintro (⟨ls, hF, hp', hne', rfl⟩ | rfl)
      · exact ⟨ls, .inl hF, hp', hne', rfl⟩
      · exact ⟨js, .inr rfl, hp, hne, rfl⟩
  refine
    { sb := f.sb, devsw := f.devsw, icache := f.icache, data := fun b hb => ?_, sbDisk := ?_,
      dinode := fun j hj => ?_, used := fun b hb => ?_, log := ?_ }
  · rw [hdisk b fun heq => hb (heq ▸ hbm), f.data b hb]
  · rw [hdisk _ (h.sbWf.SBLOCK_ne_BBLOCK _), f.sbDisk]
  · rw [← f.dinode j hj]
    unfold Fs.dinode
    rw [free_sb, hdisk]
    rw [f.sb]
    exact h.sbWf.IBLOCK_ne_BBLOCK hj
  · rw [used_free, hsplit, not_or, ← and_assoc, ← f.used b hb]
    simp only [Bool.and_eq_true, Bool.not_eq_true', decide_eq_false_iff_not]
    exact and_comm
  · obtain ⟨ws, hlog, hws⟩ := f.log
    let bm := t.sb.BBLOCK (s.forest.node k js).toNat
    refine ⟨(bm, (t.free (s.forest.node k js).toNat).disk bm) :: ws, ?_, fun x => ?_⟩
    · change t.log.absorb bm _ = _
      rw [hlog]
      rfl
    · simp only [List.map_cons, List.mem_cons, hws, hsplit, bm, f.sb]
      constructor
      · rintro (rfl | ⟨b, hb, rfl⟩)
        · exact ⟨_, .inr rfl, rfl⟩
        · exact ⟨b, .inl hb, rfl⟩
      · rintro ⟨b, hb | rfl, rfl⟩
        · exact .inr ⟨b, hb, rfl⟩
        · exact .inl rfl

/-- More blocks of the same kind may be logged. -/
theorem Freed.mayWrite {s t : Fs} {k : Nat × Fin NADDRS} {F : List Nat → Prop} {E : Stop → Prop} {P : Log → Prop}
    {B : Nat → Prop} (f : Freed s t k F) (hlog : MayWriteAll E P B) (hP : P s.log)
    (hB : ∀ b, s.OnPath k (fun _ => True) b → B (s.sb.BBLOCK b)) : P t.log := by
  obtain ⟨ws, h, hws⟩ := f.log
  rw [h]
  refine hlog.absorbAll hP fun x hx => ?_
  obtain ⟨b, ⟨js, -, hp, hne, hb⟩, rfl⟩ := (hws x).mp hx
  exact hB b ⟨js, trivial, hp, hne, hb⟩

end Fs

/-! ## Freeing a tree -/

section FreeTree

variable {s : Fs} {E : Stop → Prop} {k : Nat × Fin NADDRS} {P : Log → Prop} {B : Nat → Prop}

/-- A block that has not been freed yet is still marked, so `bfree` succeeds. -/
theorem wp_bfree_node {t : Fs} {F : List Nat → Prop} {Q : Unit → Fs → Prop} (h : s.Wf)
    (hlog : MayWriteAll E P B) (hP : P s.log) (hB : ∀ b, s.OnPath k (fun _ => True) b → B (s.sb.BBLOCK b))
    (f : Fs.Freed s t k F) {js : List Nat} (hp : blockShape.Path k js) (hne : s.forest.node k js ≠ 0) (hnot : ¬ F js)
    (hQ : ∀ u, Fs.Freed s u k (fun ls => F ls ∨ ls = js) → Q () u) :
    wp (bfree (s.forest.node k js).toNat) Q E t := by
  obtain ⟨hlt, -, hused⟩ := h.owned hp hne
  have hstill : t.used (s.forest.node k js).toNat = true := by
    refine (f.used _ hlt).mpr ⟨hused, ?_⟩
    rintro ⟨ls, hF, hp', hne', heq⟩
    obtain ⟨-, rfl⟩ := h.unshared hp' hp (UInt32.toNat_inj.mp heq) hne'
    exact hnot hF
  refine wp_bfree (f.sb ▸ h.sbWf) ?_ (f.sb ▸ hlt) hstill (hlog.write _ (f.mayWrite hlog hP hB))
    (hQ _ (f.free h hp hne))
  rw [f.sbDisk, h.sbDisk, f.sb]

/-- The paths `F`, and those that start with one of the first `j` entries of the table on `js`. -/
def FreedUpTo (F : List Nat → Prop) (js : List Nat) (j : Nat) : List Nat → Prop :=
  fun ls => F ls ∨ ∃ i < j, js ++ [i] <+: ls

theorem FreedUpTo.succ {F : List Nat → Prop} {js : List Nat} {j : Nat} (ls : List Nat) :
    FreedUpTo F js (j + 1) ls ↔ FreedUpTo F js j ls ∨ js ++ [j] <+: ls := by
  constructor
  · rintro (hls | ⟨i, hi, hpre⟩)
    · exact .inl (.inl hls)
    · rcases Nat.lt_succ_iff_lt_or_eq.mp hi with hi | rfl
      · exact .inl (.inr ⟨i, hi, hpre⟩)
      · exact .inr hpre
  · rintro ((hls | ⟨i, hi, hpre⟩) | hpre)
    · exact .inl hls
    · exact .inr ⟨i, by omega, hpre⟩
    · exact .inr ⟨j, by omega, hpre⟩

/-- Nothing at or below entry `j` comes before it. -/
theorem FreedUpTo.not_prefix {F : List Nat → Prop} {js : List Nat} {j : Nat}
    (hF : ∀ ls, F ls → ¬ js <+: ls) {ls : List Nat} (h : FreedUpTo F js j ls) :
    ¬ js ++ [j] <+: ls := by
  intro hj
  rcases h with hls | ⟨i, hi, hpre⟩
  · exact hF ls hls ((List.prefix_append js [j]).trans hj)
  · have heq := (List.prefix_of_prefix_length_le hpre hj (by simp)).eq_of_length (by simp)
    simp at heq
    omega

/-- After the last entry everything below the table is freed. -/
theorem FreedUpTo.last {F : List Nat → Prop} {js ls : List Nat} (hp : blockShape.Path k ls) :
    FreedUpTo F js NINDIRECT ls ↔ F ls ∨ (js <+: ls ∧ ls ≠ js) := by
  constructor
  · rintro (hls | ⟨i, -, hpre⟩)
    · exact .inl hls
    · refine .inr ⟨(List.prefix_append js [i]).trans hpre, ?_⟩
      rintro rfl
      have := hpre.length_le
      rw [List.length_append, List.length_singleton] at this
      omega
  · rintro (hls | ⟨⟨ms, rfl⟩, hls⟩)
    · exact .inl hls
    · cases ms with
      | nil => simp at hls
      | cons i ms => exact .inr ⟨i, hp.2 i (by simp), ms, by simp⟩

/-- What `freeBelow d` is to do at a table on the path `js`. -/
def FreesBelow (s : Fs) (E : Stop → Prop) (k : Nat × Fin NADDRS) (d : Nat) : Prop :=
  ∀ (js : List Nat) (t : Fs) (F : List Nat → Prop), js.length + d = blockShape.depth k →
    blockShape.Path k js → s.forest.node k js ≠ 0 → Fs.Freed s t k F →
    (∀ ls, F ls → ¬ js <+: ls) →
    wp (freeBelow d (s.forest.node k js))
      (fun _ u => Fs.Freed s u k fun ls => F ls ∨ (js <+: ls ∧ ls ≠ js)) E t

/-- One round of the loop over a table. -/
theorem wp_freeEntry (h : s.Wf) (hlog : MayWriteAll E P B) (hP : P s.log)
    (hB : ∀ b, s.OnPath k (fun _ => True) b → B (s.sb.BBLOCK b)) {d : Nat}
    (ih : FreesBelow s E k d) {js : List Nat} {j : Nat} {t : Fs} {F : List Nat → Prop}
    (hlen : js.length + (d + 1) = blockShape.depth k) (hp : blockShape.Path k js)
    (hne : s.forest.node k js ≠ 0) (hj : j < NINDIRECT) (f : Fs.Freed s t k (FreedUpTo F js j))
    (hF : ∀ ls, F ls → ¬ js <+: ls) :
    wp (do
      let bp ← bread (s.forest.node k js).toNat
      if bp.word j ≠ 0 then do
        freeBelow d (bp.word j)
        bfree (bp.word j).toNat
      else pure ()) (fun _ u => Fs.Freed s u k (FreedUpTo F js (j + 1))) E t := by
  have hpj : blockShape.Path k (js ++ [j]) := hp.concat (by omega) hj
  have hword : (t.disk (s.forest.node k js).toNat).word j = s.forest.node k (js ++ [j]) := by
    rw [f.data _ (h.owned hp hne).2.1]
    exact (Forest.node_concat_of_ne hne).symm
  simp only [wp_bind, wp_bread (h.node_lt_FSSIZE hp hne), hword]
  split
  · next hnej =>
    rw [wp_bind]
    refine (ih (js ++ [j]) t _ (by simp; omega) hpj hnej f fun ls => FreedUpTo.not_prefix hF).post
      fun _ u fu => ?_
    refine wp_bfree_node h hlog hP hB fu hpj hnej ?_ fun v fv => fv.congr fun ls _ _ => ?_
    · rintro (hls | ⟨-, hls⟩)
      · exact FreedUpTo.not_prefix hF hls (List.prefix_refl _)
      · exact hls rfl
    · rw [FreedUpTo.succ]
      constructor
      · rintro ((hls | ⟨hpre, -⟩) | rfl)
        · exact .inl hls
        · exact .inr hpre
        · exact .inr (List.prefix_refl _)
      · rintro (hls | hpre)
        · exact .inl (.inl hls)
        · by_cases heq : ls = js ++ [j]
          · exact .inr heq
          · exact .inl (.inr ⟨hpre, heq⟩)
  · next hnej =>
    have h0 : s.forest.node k (js ++ [j]) = 0 := not_not.mp hnej
    refine f.congr fun ls _ hls => ?_
    rw [FreedUpTo.succ]
    refine ⟨.inl, ?_⟩
    rintro (hls' | ⟨ms, rfl⟩)
    · exact hls'
    · exact absurd (Forest.node_append_eq_zero ms h0) hls

/-- Everything below `js`, and nothing else, is freed. -/
theorem wp_freeBelow (h : s.Wf) (hlog : MayWriteAll E P B) (hP : P s.log)
    (hB : ∀ b, s.OnPath k (fun _ => True) b → B (s.sb.BBLOCK b)) (d : Nat) : FreesBelow s E k d := by
  induction d with
  | zero =>
    intro js t F hlen hp hne f hF
    refine f.congr fun ls hp' _ => ⟨.inl, ?_⟩
    -- a path is no longer than the tree is deep
    rintro (hls | ⟨hpre, hls⟩)
    · exact hls
    · have := hpre.length_le
      have := hp'.1
      exact absurd (hpre.eq_of_length (by omega)).symm hls
  | succ d ih =>
    intro js t F hlen hp hne f hF
    simp only [freeBelow, forEntries, wp_bind, wp_bread (h.node_lt_FSSIZE hp hne)]
    have hloop : ∀ n j u, j + n = NINDIRECT → Fs.Freed s u k (FreedUpTo F js j) →
        wp ((List.range' j n).forM fun j => do
          let bp ← bread (s.forest.node k js).toNat
          if bp.word j ≠ 0 then do
            freeBelow d (bp.word j)
            bfree (bp.word j).toNat
          else pure ()) (fun _ v => Fs.Freed s v k (FreedUpTo F js NINDIRECT)) E u := by
      intro n
      induction n with
      | zero =>
        rintro j u rfl fu
        exact fu
      | succ n ihn =>
        intro j u hj fu
        rw [List.range'_succ, wp_forM_cons]
        exact (wp_freeEntry h hlog hP hB ih hlen hp hne (by omega) fu hF).post
          fun _ v fv => ihn (j + 1) v (by omega) fv
    have hstart : Fs.Freed s t k (FreedUpTo F js 0) := by
      refine f.congr fun ls _ _ => ⟨.inl, ?_⟩
      rintro (hls | ⟨i, hi, -⟩)
      · exact hls
      · exact absurd hi (Nat.not_lt_zero i)
    rw [List.range_eq_range']
    exact (hloop NINDIRECT 0 t (Nat.zero_add _) hstart).post
      fun _ u fu => fu.congr fun ls hp' _ => FreedUpTo.last hp'

end FreeTree

/-! ## Clearing the block pointers -/

/-- The first `m` block pointers are cleared. -/
def Inode.cut (x : Inode) (m : Nat) : Inode :=
  { x with addrs := fun k => if (k : Nat) < m then 0 else x.addrs k }

theorem Inode.cut_zero (x : Inode) : x.cut 0 = x := by simp [Inode.cut]

theorem Inode.cut_succ (x : Inode) (k : Fin NADDRS) : x.cut (k + 1) = (x.cut k).setAddr k 0 := by
  have haddrs : (x.cut (k + 1)).addrs = Function.update (x.cut k).addrs k 0 := by
    funext l
    by_cases hl : l = k
    · subst hl
      simp [Inode.cut]
    · have hiff : (l : Nat) < k + 1 ↔ (l : Nat) < k := by
        have : (l : Nat) ≠ k := fun h => hl (Fin.ext h)
        omega
      simp only [Inode.cut, hiff, Function.update_of_ne hl]
  rw [Inode.setAddr, ← haddrs]
  rfl

theorem Inode.cut_succ_of_zero {x : Inode} {k : Fin NADDRS} (h : x.addrs k = 0) :
    x.cut (k + 1) = x.cut k := by
  rw [Inode.cut_succ]
  unfold Inode.setAddr
  have hk : (x.cut k).addrs k = 0 := by simp [Inode.cut, h]
  rw [← hk, Function.update_eq_self]

namespace Fs

/-- Block `b` hangs off one of the first `m` block pointers of inode `i`. -/
def Hangs (s : Fs) (i m b : Nat) : Prop :=
  ∃ k : Fin NADDRS, (k : Nat) < m ∧ s.OnPath (i, k) (fun _ => True) b

/-- A block of these trees is neither metadata nor on another path. -/
theorem Wf.not_hangs {s : Fs} (h : s.Wf) {i m b : Nat} (hb : s.sb.IsMeta b ∨
    ∃ k js, blockShape.Path k js ∧ ¬ (k.1 = i ∧ (k.2 : Nat) < m) ∧ (s.forest.node k js).toNat = b) :
    ¬ s.Hangs i m b := by
  rintro ⟨l, hl, ls, -, hp, hne, rfl⟩
  rcases hb with hmeta | ⟨k, js, hp', hother, heq⟩
  · exact (h.owned hp hne).2.1 hmeta
  · obtain ⟨rfl, -⟩ := h.unshared hp hp' (UInt32.toNat_inj.mp heq.symm) hne
    exact hother ⟨rfl, hl⟩

/-- `t` is `s` after the trees of the first `m` block pointers of `ip` have been freed. -/
structure Truncated (s t : Fs) (ip : InodePtr) (i m : Nat) : Prop where
  sb : t.sb = s.sb
  devsw : t.devsw = s.devsw
  icache : t.icache = Function.update s.icache ip ((s.icache ip).cut m)
  data : ∀ b, ¬ s.sb.IsMeta b → t.disk b = s.disk b
  sbDisk : t.disk SBLOCK = s.disk SBLOCK
  dinode : ∀ j < s.sb.ninodes, t.dinode j = s.dinode j
  used : ∀ b < s.sb.size, t.used b = true ↔ s.used b = true ∧ ¬ s.Hangs i m b
  log : ∃ ws, t.log = s.log.absorbAll ws ∧ ∀ x, x ∈ ws.map Prod.fst ↔ ∃ b, s.Hangs i m b ∧ x = s.sb.BBLOCK b

namespace Truncated

variable {s t : Fs} {ip : InodePtr} {i m : Nat}

theorem refl (s : Fs) (ip : InodePtr) (i : Nat) : Truncated s s ip i 0 where
  sb := rfl
  devsw := rfl
  icache := by rw [Inode.cut_zero, Function.update_eq_self]
  data := fun _ _ => rfl
  sbDisk := rfl
  dinode := fun _ _ => rfl
  used := fun b _ => by simp [Hangs]
  log := ⟨[], rfl, by simp [Hangs]⟩

theorem outstanding (h : Truncated s t ip i m) : t.log.outstanding = s.log.outstanding := by
  obtain ⟨ws, hlog, -⟩ := h.log
  rw [hlog, Log.absorbAll_outstanding]

/-- Blocks of the free map are logged, and no others. -/
theorem trace (h : Truncated s t ip i m) : ∃ ds, t.log.trace = ds ++ s.log.trace ∧
    ∀ x, x ∈ ds ↔ ∃ b, s.Hangs i m b ∧ x = s.sb.BBLOCK b := by
  obtain ⟨ws, hlog, hws⟩ := h.log
  exact ⟨_, by rw [hlog, Log.absorbAll_trace], hws⟩

theorem mayWrite {E : Stop → Prop} {P : Log → Prop} {B : Nat → Prop} (h : Truncated s t ip i m)
    (hlog : MayWriteAll E P B) (hP : P s.log) (hB : ∀ b, s.Hangs i NADDRS b → B (s.sb.BBLOCK b)) : P t.log := by
  obtain ⟨ws, hws, hmem⟩ := h.log
  rw [hws]
  refine hlog.absorbAll hP fun x hx => ?_
  obtain ⟨b, ⟨k, -, hb⟩, rfl⟩ := (hmem x).mp hx
  exact hB b ⟨k, k.isLt, hb⟩

theorem icache_same (h : Truncated s t ip i m) : t.icache ip = (s.icache ip).cut m := by
  rw [h.icache, Function.update_self]

theorem icache_ne (h : Truncated s t ip i m) {jp : InodePtr} (hj : jp ≠ ip) :
    t.icache jp = s.icache jp := by
  rw [h.icache, Function.update_of_ne hj]

theorem caches_iff (h : Truncated s t ip i m) (jp : InodePtr) (j : Nat) :
    t.Caches jp j ↔ s.Caches jp j := by
  unfold Caches
  by_cases hj : jp = ip
  · subst hj
    rw [h.icache_same]
    rfl
  · rw [h.icache_ne hj]

theorem cacheInj (h : Truncated s t ip i m) (hinj : s.CacheInj) : t.CacheInj := by
  have hsame : ∀ jp, (t.icache jp).ref = (s.icache jp).ref ∧ (t.icache jp).inum = (s.icache jp).inum := by
    intro jp
    by_cases hj : jp = ip
    · subst hj
      rw [h.icache_same]
      exact ⟨rfl, rfl⟩
    · rw [h.icache_ne hj]
      exact ⟨rfl, rfl⟩
  intro jp kp hjp hkp heq
  rw [(hsame jp).1] at hjp
  rw [(hsame kp).1] at hkp
  rw [(hsame jp).2, (hsame kp).2] at heq
  exact hinj jp kp hjp hkp heq

theorem view (h : Truncated s t ip i m) (hinj : s.CacheInj) (hip : s.Caches ip i) {j : Nat}
    (hj : j < s.sb.ninodes) :
    t.view j = if j = i then ((s.icache ip).cut m).toDinode else s.view j := by
  have hinj' := h.cacheInj hinj
  by_cases hji : j = i
  · subst hji
    rw [if_pos rfl, view_of_caches hinj' ((h.caches_iff ip j).mpr hip), h.icache_same]
  · rw [if_neg hji]
    rcases view_cases hinj j with ⟨jp, hjp, hv⟩ | ⟨hno, hv⟩
    · have hne : jp ≠ ip := by
        rintro rfl
        exact hji (hjp.2.2.symm.trans hip.2.2)
      rw [view_of_caches hinj' ((h.caches_iff jp j).mpr hjp), hv, h.icache_ne hne]
    · rw [view_of_not_cached fun jp hjp => hno jp ((h.caches_iff jp j).mp hjp), hv, h.dinode j hj]

theorem root (h : Truncated s t ip i m) (hwf : s.Wf) (hip : s.Caches ip i) (k : Nat × Fin NADDRS) :
    t.forest.root k = if k.1 = i ∧ (k.2 : Nat) < m then 0 else s.forest.root k := by
  have hlt : i < s.sb.ninodes := hip.2.2 ▸ hwf.cacheRange ip hip.1
  obtain ⟨j, l⟩ := k
  dsimp only
  by_cases hj : j = i
  · subst hj
    have hviewt := h.view hwf.cacheInj hip hlt
    have hviews := view_of_caches hwf.cacheInj hip
    rw [if_pos rfl] at hviewt
    have hsame : t.Allocated j ↔ s.Allocated j := by
      unfold Allocated
      rw [h.sb, hviewt, hviews]
      rfl
    simp only [forest, hsame, hviewt, hviews, true_and, Inode.cut]
    split <;> split <;> rfl
  · rw [if_neg fun hc => hj hc.1]
    refine root_congr h.sb fun hlt' => ?_
    rw [h.view hwf.cacheInj hip hlt', if_neg hj]
    exact ⟨rfl, rfl⟩

theorem prune (h : Truncated s t ip i m) (hwf : s.Wf) (hip : s.Caches ip i) :
    Forest.Prune blockShape s.forest t.forest where
  root := fun k => by
    rw [h.root hwf hip]
    split
    · exact .inl rfl
    · exact .inr rfl
  child := fun k js j hp hne => by
    rw [forest_child, forest_child, h.data _ (hwf.owned hp.init hne).2.1]

/-- The trees of the pointers that were cleared are gone, the others are as before. -/
theorem node (h : Truncated s t ip i m) (hwf : s.Wf) (hip : s.Caches ip i) {k : Nat × Fin NADDRS}
    {js : List Nat} (hp : blockShape.Path k js) :
    t.forest.node k js = if k.1 = i ∧ (k.2 : Nat) < m then 0 else s.forest.node k js := by
  have hroot := h.root hwf hip k
  split
  · next hk =>
    rw [if_pos hk] at hroot
    exact Forest.node_of_root_eq_zero js hroot
  · next hk =>
    rw [if_neg hk] at hroot
    exact (h.prune hwf hip).node_of_root hroot hp

theorem wf (h : Truncated s t ip i m) (hwf : s.Wf) (hip : s.Caches ip i) : t.Wf := by
  refine hwf.of_subtree h.sb h.sbDisk
    (fun b hlt hused hb => (h.used b hlt).mpr ⟨hused, hwf.not_hangs ?_⟩)
    (fun _ _ hp hne => (h.prune hwf hip).node hp hne) (h.cacheInj hwf.cacheInj) (fun jp hjp => ?_)
    fun j hj => ?_
  · rcases hb with hmeta | ⟨k, js, hp, hne, heq⟩
    · exact .inl hmeta
    · refine .inr ⟨k, js, hp, fun hk => hne ?_, heq⟩
      rw [h.node hwf hip hp, if_pos hk]
  · by_cases hj : jp = ip
    · subst hj
      rw [h.icache_same]
      exact hwf.cacheRange jp hip.1
    · rw [h.icache_ne hj] at hjp ⊢
      exact hwf.cacheRange jp hjp
  · have hlt : j < s.sb.ninodes := h.sb ▸ hj.1
    have htype := hj.2
    rw [h.view hwf.cacheInj hip hlt] at htype ⊢
    split
    · next hji =>
      have hv := view_of_caches hwf.cacheInj hip
      rw [if_pos hji] at htype
      have hsize := hwf.sizeLe i ⟨hji ▸ hlt, by rw [hv]; exact htype⟩
      rw [hv] at hsize
      exact hsize
    · next hji =>
      rw [if_neg hji] at htype
      exact hwf.sizeLe j ⟨hlt, htype⟩

theorem onPath_iff (h : Truncated s t ip i m) (hwf : s.Wf) (hip : s.Caches ip i) {k : Fin NADDRS}
    (hk : m ≤ k) (F : List Nat → Prop) (b : Nat) : t.OnPath (i, k) F b ↔ s.OnPath (i, k) F b := by
  have hnode : ∀ js, blockShape.Path (i, k) js → t.forest.node (i, k) js = s.forest.node (i, k) js := by
    intro js hp
    rw [h.node hwf hip hp, if_neg]
    exact fun hc => absurd hc.2 (not_lt.mpr hk)
  constructor
  · rintro ⟨js, hF, hp, hne, rfl⟩
    rw [hnode js hp] at hne ⊢
    exact ⟨js, hF, hp, hne, rfl⟩
  · rintro ⟨js, hF, hp, hne, rfl⟩
    exact ⟨js, hF, hp, by rw [hnode js hp]; exact hne, by rw [hnode js hp]⟩

theorem hangs_succ (s : Fs) (i : Nat) (k : Fin NADDRS) (b : Nat) :
    s.Hangs i (k + 1) b ↔ s.Hangs i k b ∨ s.OnPath (i, k) (fun _ => True) b := by
  constructor
  · rintro ⟨l, hl, hb⟩
    rcases Nat.lt_succ_iff_lt_or_eq.mp hl with hl | hl
    · exact .inl ⟨l, hl, hb⟩
    · obtain rfl := Fin.ext hl
      exact .inr hb
  · rintro (⟨l, hl, hb⟩ | hb)
    · exact ⟨l, by omega, hb⟩
    · exact ⟨k, by omega, hb⟩

/-- The tree of the next pointer is freed, and the pointer is cleared. -/
theorem next {k : Fin NADDRS} (h : Truncated s t ip i k) (hwf : s.Wf) (hip : s.Caches ip i) {u : Fs}
    (f : Freed t u (i, k) fun _ => True) :
    Truncated s (u.setInode ip ((u.icache ip).setAddr k 0)) ip i (k + 1) where
  sb := f.sb.trans h.sb
  devsw := f.devsw.trans h.devsw
  icache := by
    have hu : u.icache = Function.update s.icache ip ((s.icache ip).cut k) := f.icache.trans h.icache
    have huip : u.icache ip = (s.icache ip).cut k := by rw [hu, Function.update_self]
    simp only [setInode, huip, ← Inode.cut_succ, hu, Function.update_idem]
  data := fun b hb => (f.data b (h.sb.symm ▸ hb)).trans (h.data b hb)
  sbDisk := f.sbDisk.trans h.sbDisk
  dinode := fun j hj => (f.dinode j (h.sb.symm ▸ hj)).trans (h.dinode j hj)
  used := fun b hb => by
    have hu : (u.setInode ip ((u.icache ip).setAddr k 0)).used b = u.used b := rfl
    rw [hu, f.used b (h.sb.symm ▸ hb), h.used b hb, hangs_succ, not_or, and_assoc,
      h.onPath_iff hwf hip le_rfl]
  log := by
    obtain ⟨ws, hlog, hws⟩ := h.log
    obtain ⟨ws', hlog', hws'⟩ := f.log
    refine ⟨ws' ++ ws, ?_, fun x => ?_⟩
    · rw [setInode_log, hlog', hlog, Log.absorbAll_append]
    · simp only [List.map_append, List.mem_append, hws, hws', hangs_succ, h.onPath_iff hwf hip le_rfl, h.sb]
      constructor
      · rintro (⟨b, hb, rfl⟩ | ⟨b, hb, rfl⟩)
        · exact ⟨b, .inr hb, rfl⟩
        · exact ⟨b, .inl hb, rfl⟩
      · rintro ⟨b, hb | hb, rfl⟩
        · exact .inr ⟨b, hb, rfl⟩
        · exact .inl ⟨b, hb, rfl⟩

/-- There is nothing to free at a pointer that is zero. -/
theorem skip {k : Fin NADDRS} (h : Truncated s t ip i k) (hwf : s.Wf) (hip : s.Caches ip i)
    (hk : (s.icache ip).addrs k = 0) : Truncated s t ip i (k + 1) := by
  have hroot : s.forest.root (i, k) = 0 := by
    unfold forest
    dsimp only
    split
    · rw [view_of_caches hwf.cacheInj hip, hk]
    · rfl
  have hhangs : ∀ b, s.Hangs i (k + 1) b ↔ s.Hangs i k b := by
    intro b
    rw [hangs_succ]
    refine ⟨?_, .inl⟩
    rintro (hb | ⟨js, -, -, hne, -⟩)
    · exact hb
    · exact absurd (Forest.node_of_root_eq_zero js hroot) hne
  refine
    { sb := h.sb, devsw := h.devsw, icache := ?_, data := h.data, sbDisk := h.sbDisk, dinode := h.dinode
      used := fun b hb => ?_, log := ?_ }
  · rw [Inode.cut_succ_of_zero hk]
    exact h.icache
  · rw [hhangs]
    exact h.used b hb
  · simp only [hhangs]
    exact h.log

end Truncated

end Fs

section Itrunc

variable {s : Fs} {E : Stop → Prop} {ip : InodePtr} {i : Nat} {P : Log → Prop} {B : Nat → Prop}

theorem wp_truncAddr {t : Fs} {k : Fin NADDRS} (hwf : s.Wf) (hip : s.Caches ip i)
    (hal : s.Allocated i) (hlog : MayWriteAll E P B) (hP : P s.log)
    (hB : ∀ b, s.Hangs i NADDRS b → B (s.sb.BBLOCK b)) (h : Fs.Truncated s t ip i k) :
    wp (truncAddr ip k (freeBelow (addrDepth k))) (fun _ u => Fs.Truncated s u ip i (k + 1)) E t := by
  have hwft := h.wf hwf hip
  have hipt := (h.caches_iff ip i).mpr hip
  have haddr : (t.icache ip).addrs k = (s.icache ip).addrs k := by
    rw [h.icache_same]
    exact if_neg (lt_irrefl _)
  simp only [truncAddr, wp_bind, wp_deref]
  split
  · next hne =>
    have hroot : t.forest.node (i, k) [] = (t.icache ip).addrs k := by
      have halt : t.Allocated i := by
        refine ⟨h.sb.symm ▸ hal.1, ?_⟩
        rw [Fs.view_of_caches hwft.cacheInj hipt, h.icache_same]
        have := hal.2
        rw [Fs.view_of_caches hwf.cacheInj hip] at this
        exact this
      rw [Forest.node_nil, Fs.forest_root halt, Fs.view_of_caches hwft.cacheInj hipt]
    rw [← hroot] at hne ⊢
    have hPt := h.mayWrite hlog hP hB
    have hBt : ∀ b, t.OnPath (i, k) (fun _ => True) b → B (t.sb.BBLOCK b) := by
      intro b hb
      rw [h.sb]
      exact hB b ⟨k, k.isLt, (h.onPath_iff hwf hip le_rfl _ b).mp hb⟩
    simp only [wp_bind, wp_imodify]
    have hlen : ([] : List Nat).length + addrDepth k = blockShape.depth (i, k) := by
      simp [blockShape]
    have hbelow := wp_freeBelow hwft hlog hPt hBt (addrDepth k) [] t (fun _ => False) hlen
      Shape.Path.nil hne (.refl t _) (fun _ hF => hF.elim)
    refine hbelow.post fun _ u fu => ?_
    refine wp_bfree_node hwft hlog hPt hBt fu Shape.Path.nil hne (by simp) fun v fv => ?_
    refine h.next hwf hip (fv.congr fun ls _ _ => ?_)
    by_cases hls : ls = [] <;> simp [hls]
  · next hzero =>
    have h0 : (s.icache ip).addrs k = 0 := by
      rw [← haddr]
      exact not_not.mp hzero
    exact h.skip hwf hip h0

/-- `itrunc` frees exactly the blocks of the file, each once, and leaves an empty file. -/
theorem wp_itrunc {Q : Unit → Fs → Prop} (hwf : s.Wf) (hip : s.Caches ip i)
    (hal : s.Allocated i) (hlog : MayWriteAll E P B) (hP : P s.log)
    (hB : ∀ b, s.Hangs i NADDRS b → B (s.sb.BBLOCK b))
    (hQ : ∀ t, Fs.Truncated s t ip i NADDRS → Q () (t.resize ip 0)) : wp (itrunc ip) Q E s := by
  have hdirect : ∀ n m t, m + n = NDIRECT → Fs.Truncated s t ip i m →
      wp (((List.finRange NDIRECT).drop m).forM fun j =>
        truncAddr ip (j.castLE (by decide)) (freeBelow 0))
        (fun _ u => Fs.Truncated s u ip i NDIRECT) E t := by
    intro n
    induction n with
    | zero =>
      rintro m t rfl h
      rw [List.drop_eq_nil_of_le (by simp)]
      exact h
    | succ n ih =>
      intro m t hm h
      have hlt : m < (List.finRange NDIRECT).length := by simp; omega
      have hlt' : m < NADDRS := by unfold NADDRS; omega
      rw [List.drop_eq_getElem_cons hlt, wp_forM_cons, List.getElem_finRange]
      have hk := wp_truncAddr (k := ⟨m, hlt'⟩) hwf hip hal hlog hP hB h
      have hdepth : addrDepth ⟨m, hlt'⟩ = 0 := by
        unfold addrDepth
        dsimp only
        omega
      rw [hdepth] at hk
      exact hk.post fun _ u hu => ih (m + 1) u (by omega) hu
  rw [itrunc_eq]
  simp only [wp_bind, wp_imodify]
  refine (hdirect NDIRECT 0 s (Nat.zero_add _) (.refl s ip i)).post fun _ t h => ?_
  refine (wp_truncAddr (k := 10) hwf hip hal hlog hP hB h).post fun _ t h => ?_
  refine (wp_truncAddr (k := 11) hwf hip hal hlog hP hB h).post fun _ t h => ?_
  refine (wp_truncAddr (k := 12) hwf hip hal hlog hP hB h).post fun _ t h => ?_
  have hwft := h.wf hwf hip
  have hipt := (h.caches_iff ip i).mpr hip
  refine wp_iupdate hwft.sbWf ?_ (hlog.write _ (h.mayWrite hlog hP hB)) (hQ t h)
  rw [Fs.setInode_icache_same]
  exact hwft.cacheRange ip hipt.1

end Itrunc

end Xv6
