-- SUMMARY: Rules for link, unlink, open, mkdir, mknod, chdir and close, without the log.
import Xv6.FileSystem.DirectoryCalls
import Xv6.FileSystem.SysFile

/-! # System calls

One rule for each system call that changes the file system, assembled from the
rules of the inode and directory calls. The rules say what becomes of the inode
cache and of the references that the caller has; they leave the log aside.
-/

namespace Xv6

open Prog Fs

variable {s t u : Fs} {o o' : Own} {ip dp cwd : InodePtr} {name path : List UInt8}

/-- A call takes `s` to `t` and its caller's references from `o` to `o'`. -/
abbrev Fs.Takes (s t : Fs) (o o' : Own) : Prop := Step False s t o o' []

theorem Fs.Step.takes {A : Prop} {l : List Nat} (h : Step A s t o o' l) : Takes s t o o' :=
  ⟨h.tidy, h.sb, h.refs, h.agree, False.elim, False.elim⟩

/-- The references after a call that returns an inode or none. -/
def Own.gain (o : Own) (r : Option InodePtr) : Own := r.elim o o.hold

/-! ## Ends of calls -/

section Ends

variable {Q : Fs → Prop}

theorem runs_end (o : Own) (h : s.Tidy) (hQ : ∀ t, Takes s t o o → Q t) : Runs endOp s fun _ t => Q t := by
  refine (runs_endOp False o h).post ?_
  rintro - t ⟨hst, -⟩
  exact hQ t hst

theorem runs_putEnd (h : s.Tidy) (hc : s.Covered (o.hold ip)) (hQ : ∀ t, Takes s t (o.hold ip) o → Q t) :
    Runs (iunlockput ip) s fun _ t => Runs endOp t fun _ u => Q u := by
  refine (runs_iunlockput False h hc).post ?_
  rintro - t ⟨hst, -⟩
  exact runs_end o hst.tidy fun u hu => hQ u (hst.trans hu)

/-- Assignments to fields of `ip`, and `iupdate(ip)`. -/
theorem runs_update (o : Own) {major minor nlink : Int16} (h : s.Tidy) (hip : s.Loaded ip)
    (hQ : ∀ t, Takes s t o o → SteadyBut ip o s t → Q t) :
    Runs (iupdate ip) (s.setInode ip { s.icache ip with major := major, minor := minor, nlink := nlink })
      fun _ t => Q t :=
  runs_assign h hip (hQ _ (Step.assign (A := False) h hip False.elim).takes (steadyBut_assign o))

/-- `ip->nlink = n; iupdate(ip); iunlockput(ip); end_op()`. -/
theorem runs_relinkEnd {n : Int16} (h : s.Tidy) (hc : s.Covered (o.hold ip)) (hip : s.Loaded ip)
    (hQ : ∀ t, Takes s t (o.hold ip) o → Q t) :
    Runs (iupdate ip) (s.setInode ip { s.icache ip with nlink := n }) fun _ t =>
      Runs (iunlockput ip) t fun _ u => Runs endOp u fun _ v => Q v := by
  refine runs_update (o.hold ip) h hip fun t hst _ => ?_
  exact runs_putEnd hst.tidy (hst.covered hc) fun u hu => hQ u (hst.trans hu)

end Ends

/-! ## link -/

theorem runs_linkBad (h : s.Tidy) (hc : s.Covered (o.hold ip)) :
    Runs (linkBad ip) s fun _ t => Takes s t (o.hold ip) o := by
  simp only [linkBad, wp_bind, wp_imodify, wp_pure]
  refine (runs_ilock False h hc (o.hold_pos ip)).post ?_
  rintro - t ⟨hst, -, hip⟩
  exact runs_relinkEnd hst.tidy (hst.covered hc) hip fun u hu => hst.trans hu

/-- `dirlink` of the inode in `ip`, and what follows in `sys_link`. -/
theorem runs_linkInto (h : s.Tidy) (hc : s.Covered ((o.hold ip).hold dp)) (hdp : s.Loaded dp) :
    Runs (dirlink dp name (s.icache ip).inum) s fun _ t =>
      (Runs (iunlockput dp) t fun _ u => Runs (linkBad ip) u fun _ v => Takes s v ((o.hold ip).hold dp) o) ∧
      Runs (iunlockput dp) t fun _ u => Runs (iput ip) u fun _ v => Runs endOp v fun _ w =>
        Takes s w ((o.hold ip).hold dp) o := by
  have hip : s.Held ip := hc.held ((o.hold_pos ip).trans_le ((o.hold ip).le_hold dp ip))
  refine (runs_dirlink False h hc hdp ((o.hold ip).hold_pos dp) (h.cacheRange ip hip)).post ?_
  rintro r t ⟨bn, hlinked⟩
  have hst := hlinked.step.takes
  have hput : Runs (iunlockput dp) t fun _ u => Takes s u ((o.hold ip).hold dp) (o.hold ip) := by
    refine (runs_iunlockput False hst.tidy (hst.covered hc)).post ?_
    rintro - u ⟨hst', -⟩
    exact hst.trans hst'
  refine ⟨hput.post fun _ u hu => ?_, hput.post fun _ u hu => ?_⟩
  · exact (runs_linkBad hu.tidy (hu.covered hc)).post fun _ v hv => hu.trans hv
  · refine (runs_iput False hu.tidy (hu.covered hc)).post ?_
    rintro - v ⟨hv, -⟩
    exact runs_end o hv.tidy fun w hw => (hu.trans hv).trans hw

theorem runs_sysLink (h : s.Tidy) (hc : s.Covered o) (hcwd : 0 < o cwd) (old new : List UInt8) :
    Runs (sysLink cwd old new) s fun _ t => Takes s t o o := by
  simp only [sysLink, wp_bind]
  refine (runs_beginOp False o h).post ?_
  rintro - s₁ ⟨h₁, -⟩
  refine (runs_namei False h₁.tidy (h₁.covered hc) ((h₁.covered hc).held hcwd) old).post ?_
  rintro r s₂ ⟨hnone, hsome, -⟩
  cases r with
  | none =>
    simp only [wp_bind, wp_pure]
    have h₂ := h₁.trans (hnone rfl)
    exact runs_end o h₂.tidy fun t ht => h₂.trans ht
  | some ip =>
    have h₂ := h₁.trans (hsome ip rfl)
    simp only [wp_bind, wp_deref]
    refine (runs_ilock False h₂.tidy (h₂.covered hc) (o.hold_pos ip)).post ?_
    rintro - s₃ ⟨h₃, -, hip⟩
    replace h₃ := h₂.trans h₃
    split
    · simp only [wp_bind, wp_pure]
      exact runs_putEnd h₃.tidy (h₃.covered hc) fun t ht => h₃.trans ht
    · simp only [wp_bind, wp_imodify]
      refine runs_update (o.hold ip) h₃.tidy hip fun s₄ h₄ _ => ?_
      replace h₄ := h₃.trans h₄
      refine (runs_iunlock False (o.hold ip) h₄.tidy).post ?_
      rintro - s₅ ⟨h₅, -⟩
      replace h₅ := h₄.trans h₅
      have hcwd' : 0 < (o.hold ip) cwd := hcwd.trans_le (o.le_hold ip cwd)
      refine (runs_namex False h₅.tidy (h₅.covered hc) ((h₅.covered hc).held hcwd') new true).post ?_
      rintro r s₆ ⟨hr, -⟩
      cases r with
      | none =>
        have h₆ := h₅.trans hr
        exact (runs_linkBad h₆.tidy (h₆.covered hc)).post fun _ t ht => h₆.trans ht
      | some r =>
        obtain ⟨dp, name⟩ := r
        have h₆ := h₅.trans hr
        simp only [wp_bind, wp_deref]
        refine (runs_ilock False h₆.tidy (h₆.covered hc) ((o.hold ip).hold_pos dp)).post ?_
        rintro - s₇ ⟨h₇, -, hdp⟩
        replace h₇ := h₆.trans h₇
        refine (runs_linkInto h₇.tidy (h₇.covered hc) hdp).post ?_
        rintro r s₈ ⟨hbad, hgood⟩
        split
        · simp only [wp_bind]
          exact hbad.post fun _ _ hu => hu.post fun _ _ hv => h₇.trans hv
        · simp only [wp_bind, wp_pure]
          exact hgood.post fun _ _ hu => hu.post fun _ _ hv => hv.post fun _ _ hw => h₇.trans hw

/-! ## unlink -/

theorem runs_isdiremptyLoop (h : s.Tidy) (hdp : s.Dir dp) :
    ∀ fuel k, Runs (isdiremptyLoop dp fuel (k * DIRENTSIZE)) s fun _ t => t = s := by
  intro fuel
  induction fuel with
  | zero => exact fun _ => rfl
  | succ fuel ih =>
    intro k
    simp only [isdiremptyLoop, wp_bind, wp_deref]
    split
    · next hk =>
      simp only [wp_bind]
      refine wp_readEntry h hdp hk (fun r hr => ?_) fun _ => ?_
      · rw [if_pos hr]
        trivial
      · rw [if_neg (fun hne => hne rfl)]
        split
        · rfl
        · rw [← Nat.succ_mul]
          exact ih (k + 1)
    · rfl

theorem runs_isdirempty (h : s.Tidy) (hdp : s.Dir dp) : Runs (isdirempty dp) s fun _ t => t = s := by
  simp only [isdirempty, wp_bind, wp_deref]
  exact runs_isdiremptyLoop h hdp _ 2

theorem Fs.Covered.mono (h : s.Covered o') (ho : ∀ jp, o jp ≤ o' jp) : s.Covered o :=
  fun jp => (Int.ofNat_le.mpr (ho jp)).trans (h jp)

theorem own_le_other (o : Own) (ip dp jp : InodePtr) : o.hold dp jp ≤ (o.hold ip).hold dp jp := by
  rw [o.hold_comm ip dp]
  exact (o.hold dp).le_hold ip jp

theorem Fs.SteadyBut.loaded {jp : InodePtr} (h : SteadyBut ip o s t) (hc : t.Covered o) (ho : 0 < o jp)
    (hjp : s.Loaded jp) : t.Loaded jp := ⟨hc.held ho, ((h jp ho).2 hjp.2).1⟩

theorem runs_unlinkEntry {k : Nat} (h : s.Tidy) (hc : s.Covered ((o.hold ip).hold dp)) (hdp : s.Dir dp)
    (hip : s.Loaded ip) (hk : (k + 1) * DIRENTSIZE ≤ (s.icache dp).size.toNat) :
    Runs (unlinkEntry dp ip (k * DIRENTSIZE)) s fun _ t => Takes s t ((o.hold ip).hold dp) o := by
  have hheld : 0 < ((o.hold ip).hold dp) ip := (o.hold_pos ip).trans_le ((o.hold ip).le_hold dp ip)
  simp only [unlinkEntry, wp_bind]
  refine (runs_writeEntry h hdp (.inr hk)).post ?_
  rintro r t (⟨rfl, rfl⟩ | ⟨hlt, hw⟩)
  · rw [if_pos (by decide)]
    trivial
  split
  · trivial
  -- the entry is gone; the counts follow
  have hzero : (Dirent.ofBytes (Bytes.zero.slice 0 DIRENTSIZE)).inum.toNat < s.sb.ninodes :=
    Nat.lt_of_le_of_lt (by decide) h.root
  have ht : Takes s t ((o.hold ip).hold dp) ((o.hold ip).hold dp) :=
    (hw.dirStep (A := False) h hdp (.inr hk) hzero hlt).takes
  have hrest : ∀ {u : Fs}, Takes s u ((o.hold ip).hold dp) ((o.hold ip).hold dp) → u.Loaded ip →
      Runs (iunlockput dp) u fun _ v => Runs (iupdate ip) (v.setInode ip
        { v.icache ip with nlink := (v.icache ip).nlink - 1 }) fun _ w =>
          Runs (iunlockput ip) w fun _ x => Runs endOp x fun _ y => Takes s y ((o.hold ip).hold dp) o := by
    intro u hu hloaded
    refine (runs_iunlockput False hu.tidy (hu.covered hc)).post ?_
    rintro - v ⟨hv, hsteady⟩
    replace hv := hu.trans hv
    have hloaded' := hsteady.loaded (hv.covered hc) hloaded (o.hold_pos ip) (o.hold_pos ip)
    exact runs_relinkEnd hv.tidy (hv.covered hc) hloaded' fun w hw => hv.trans hw
  have hip' : t.Loaded ip := (hw.steadyBut _).loaded (ht.covered hc) hheld hip
  have hdp' : t.Loaded dp := (hw.steadyBut _).loaded (ht.covered hc) ((o.hold ip).hold_pos dp) hdp.loaded
  simp only [wp_bind, wp_deref]
  split
  · simp only [wp_bind, wp_imodify, wp_pure]
    refine runs_update ((o.hold ip).hold dp) ht.tidy hdp' fun u hu hsteady => ?_
    replace hu := ht.trans hu
    exact hrest hu (hsteady.loaded (hu.covered hc) hheld hip')
  · simp only [wp_bind, wp_imodify, wp_pure]
    exact hrest ht hip'

theorem runs_sysUnlink (h : s.Tidy) (hc : s.Covered o) (hcwd : 0 < o cwd) (path : List UInt8) :
    Runs (sysUnlink cwd path) s fun _ t => Takes s t o o := by
  simp only [sysUnlink, wp_bind]
  refine (runs_beginOp False o h).post ?_
  rintro - s₁ ⟨h₁, -⟩
  refine (runs_namex False h₁.tidy (h₁.covered hc) ((h₁.covered hc).held hcwd) path true).post ?_
  rintro r s₂ ⟨hr, -⟩
  cases r with
  | none =>
    simp only [wp_bind, wp_pure]
    have h₂ := h₁.trans hr
    exact runs_end o h₂.tidy fun t ht => h₂.trans ht
  | some r =>
    obtain ⟨dp, name⟩ := r
    have h₂ := h₁.trans hr
    simp only [wp_bind]
    refine (runs_ilock False h₂.tidy (h₂.covered hc) (o.hold_pos dp)).post ?_
    rintro - s₃ ⟨h₃, -, hdp⟩
    replace h₃ := h₂.trans h₃
    have hbad : ∀ {u : Fs}, Takes s u o (o.hold dp) → Runs (unlinkBad dp) u fun _ v => Takes s v o o := by
      intro u hu
      simp only [unlinkBad, wp_bind, wp_pure]
      exact runs_putEnd hu.tidy (hu.covered hc) fun v hv => hu.trans hv
    split
    · exact hbad h₃
    simp only [wp_bind]
    refine (runs_dirlookup False h₃.tidy (h₃.covered hc) hdp).post ?_
    rintro r s₄ ⟨hdir, hnone, hsome⟩
    cases r with
    | none =>
      obtain rfl := hnone rfl
      exact hbad h₃
    | some r =>
      obtain ⟨ip, off⟩ := r
      obtain ⟨k, rfl, hfound⟩ := hsome ip off rfl
      have h₄ : Takes s s₄ o ((o.hold ip).hold dp) := by
        rw [← o.hold_comm dp ip]
        exact h₃.trans hfound.step
      have hheld : 0 < ((o.hold ip).hold dp) ip := (o.hold_pos ip).trans_le ((o.hold ip).le_hold dp ip)
      simp only [wp_bind, wp_deref]
      refine (runs_ilock False h₄.tidy (h₄.covered hc) hheld).post ?_
      rintro - s₅ ⟨h₅, hsteady, hip⟩
      replace h₅ := h₄.trans h₅
      have hsteady₅ := hfound.steady.trans (hsteady.mono (own_le_other o ip dp))
      have hdir₅ := hdir.steady hsteady₅ ((h₅.covered hc).mono (own_le_other o ip dp)) (o.hold_pos dp)
      have hsize : (s₅.icache dp).size = (s₃.icache dp).size :=
        congrArg Dinode.size ((hsteady₅.entry dp (o.hold_pos dp)).2 hdp.2).2
      have hentry : Runs (unlinkEntry dp ip (k * DIRENTSIZE)) s₅ fun _ t => Takes s t o o :=
        (runs_unlinkEntry h₅.tidy (h₅.covered hc) hdir₅ hip (hsize ▸ hfound.inside)).post fun _ t ht => h₅.trans ht
      split
      · trivial
      split
      · next htype =>
        simp only [wp_bind, wp_pure]
        refine (runs_isdirempty h₅.tidy ⟨hip, htype⟩).post ?_
        rintro e _ rfl
        split
        · simp only [wp_bind]
          rw [← o.hold_comm dp ip] at h₅
          refine (runs_iunlockput False h₅.tidy (h₅.covered hc)).post ?_
          rintro - u ⟨hu, -⟩
          exact hbad (h₅.trans hu)
        · exact hentry
      · exact hentry

/-! ## open, mkdir and mknod -/

theorem runs_createLink (h : s.Tidy) (hc : s.Covered ((o.hold ip).hold dp)) (hdp : s.Loaded dp) (hip : s.Loaded ip)
    (type : Int16) :
    Runs (createLink dp ip name type) s fun _ t => Takes s t ((o.hold ip).hold dp) (o.hold ip) := by
  have hpos : 0 < ((o.hold ip).hold dp) ip := (o.hold_pos ip).trans_le ((o.hold ip).le_hold dp ip)
  have hpos' : 0 < ((o.hold ip).hold dp) dp := (o.hold ip).hold_pos dp
  have hrange := h.cacheRange ip hip.1
  have hlast : ∀ {t : Fs}, Takes s t ((o.hold ip).hold dp) ((o.hold ip).hold dp) → t.Loaded dp →
      Runs (dirlink dp name (s.icache ip).inum) t fun r u =>
        Runs (if r < 0 then throw .createDirlink else iunlockput dp) u fun _ v =>
          Takes s v ((o.hold ip).hold dp) (o.hold ip) := by
    intro t ht hdp
    refine (runs_dirlink False ht.tidy (ht.covered hc) hdp hpos' (ht.sb ▸ hrange)).post ?_
    rintro r u ⟨bn, hlinked⟩
    have hu := ht.trans hlinked.step.takes
    split
    · trivial
    · refine (runs_iunlockput False hu.tidy (hu.covered hc)).post ?_
      rintro - v ⟨hv, -⟩
      exact hu.trans hv
  simp only [createLink, wp_bind, wp_deref]
  split
  · simp only [wp_bind, wp_imodify]
    refine runs_update ((o.hold ip).hold dp) h hdp fun s₁ h₁ hsteady₁ => ?_
    have hdp₁ := hsteady₁.loaded (h₁.covered hc) hpos' hdp
    have hip₁ := hsteady₁.loaded (h₁.covered hc) hpos hip
    refine (runs_dirlink False h₁.tidy (h₁.covered hc) hip₁ hpos (h₁.sb ▸ hrange)).post ?_
    rintro r s₂ ⟨bn, hlinked₂⟩
    have h₂ := h₁.trans hlinked₂.step.takes
    have hdp₂ := hlinked₂.steady.loaded (h₂.covered hc) hpos' hdp₁
    have hip₂ := hlinked₂.steady.loaded (h₂.covered hc) hpos hip₁
    split
    · trivial
    · simp only [wp_bind, wp_deref]
      refine (runs_dirlink False h₂.tidy (h₂.covered hc) hip₂ hpos (h₂.tidy.cacheRange dp hdp₂.1)).post ?_
      rintro r s₃ ⟨bn, hlinked₃⟩
      have h₃ := h₂.trans hlinked₃.step.takes
      split
      · trivial
      · simp only [wp_bind]
        exact hlast h₃ (hlinked₃.steady.loaded (h₃.covered hc) hpos' hdp₂)
  · simp only [wp_bind]
    exact hlast (.refl h) hdp

theorem runs_create (h : s.Tidy) (hc : s.Covered o) (hcwd : 0 < o cwd) (path : List UInt8) (type major minor : Int16) :
    Runs (create cwd path type major minor) s fun r t => Takes s t o (o.gain r) := by
  simp only [create, wp_bind]
  refine (runs_namex False h hc (hc.held hcwd) path true).post ?_
  rintro r s₁ ⟨h₁, -⟩
  cases r with
  | none => exact h₁
  | some r =>
    obtain ⟨dp, name⟩ := r
    replace h₁ : Takes s s₁ o (o.hold dp) := h₁
    simp only [wp_bind]
    refine (runs_ilock False h₁.tidy (h₁.covered hc) (o.hold_pos dp)).post ?_
    rintro - s₂ ⟨h₂, -, hdp⟩
    replace h₂ := h₁.trans h₂
    refine (runs_dirlookup False h₂.tidy (h₂.covered hc) hdp).post ?_
    rintro r s₃ ⟨-, hnone, hsome⟩
    cases r with
    | some r =>
      obtain ⟨ip, off⟩ := r
      obtain ⟨k, -, hfound⟩ := hsome ip off rfl
      have h₃ : Takes s s₃ o ((o.hold ip).hold dp) := by
        rw [← o.hold_comm dp ip]
        exact h₂.trans hfound.step
      simp only [wp_bind, wp_deref]
      refine (runs_iunlockput False h₃.tidy (h₃.covered hc)).post ?_
      rintro - s₄ ⟨h₄, -⟩
      replace h₄ := h₃.trans h₄
      refine (runs_ilock False h₄.tidy (h₄.covered hc) (o.hold_pos ip)).post ?_
      rintro - s₅ ⟨h₅, -⟩
      replace h₅ := h₄.trans h₅
      split
      · exact h₅
      · simp only [wp_bind]
        refine (runs_iunlockput False h₅.tidy (h₅.covered hc)).post ?_
        rintro - s₆ ⟨h₆, -⟩
        exact h₅.trans h₆
    | none =>
      obtain rfl := hnone rfl
      simp only [wp_bind, wp_imodify, wp_pure]
      refine (runs_ialloc h₂.tidy (h₂.covered hc)).post fun ip s₄ hlock => ?_
      refine hlock.post ?_
      rintro - s₅ ⟨i, hclaimed⟩
      refine runs_assign hclaimed.tidy hclaimed.loaded ?_
      have h₅ : Takes s (s₅.assign ip major minor 1) o ((o.hold ip).hold dp) := by
        rw [← o.hold_comm dp ip]
        exact (h₂.trans (hclaimed.step False (by decide))).takes
      have hdp₅ : s₅.Loaded dp := by
        have hcov : s₅.Covered ((o.hold dp).hold ip) := fun jp => by
          have h := h₂.covered hc jp
          have href := hclaimed.refs jp
          omega
        exact ⟨hcov.held ((o.hold_pos dp).trans_le ((o.hold dp).le_hold ip dp)),
          ((hclaimed.entries dp (o.hold_pos dp)).2 hdp.2).1⟩
      refine (runs_createLink h₅.tidy (h₅.covered hc) (assign_loaded.mpr hdp₅) (assign_loaded.mpr hclaimed.loaded)
        type).post fun _ t ht => ?_
      exact h₅.trans ht

theorem runs_openInode (h : s.Tidy) (hc : s.Covered o) (hcwd : 0 < o cwd) (path : List UInt8) (omode : UInt32) :
    Runs (openInode cwd path omode) s fun r t => Takes s t o (o.gain r) := by
  unfold openInode
  split
  · exact runs_create h hc hcwd path T_FILE 0 0
  · simp only [wp_bind]
    refine (runs_namei False h hc (hc.held hcwd) path).post ?_
    rintro r s₁ ⟨hnone, hsome, -⟩
    cases r with
    | none => exact hnone rfl
    | some ip =>
      have h₁ := hsome ip rfl
      simp only [wp_bind, wp_deref]
      refine (runs_ilock False h₁.tidy (h₁.covered hc) (o.hold_pos ip)).post ?_
      rintro - s₂ ⟨h₂, -⟩
      replace h₂ := h₁.trans h₂
      split
      · simp only [wp_bind]
        refine (runs_iunlockput False h₂.tidy (h₂.covered hc)).post ?_
        rintro - s₃ ⟨h₃, -⟩
        exact h₂.trans h₃
      · exact h₂

theorem runs_sysOpen (h : s.Tidy) (hc : s.Covered o) (hcwd : 0 < o cwd) (path : List UInt8) (omode : UInt32)
    (room : Bool) : Runs (sysOpen cwd path omode room) s fun r t => Takes s t o (o.gain r) := by
  simp only [sysOpen, wp_bind]
  refine (runs_beginOp False o h).post ?_
  rintro - s₁ ⟨h₁, -⟩
  refine (runs_openInode h₁.tidy (h₁.covered hc) hcwd path omode).post fun r s₂ h₂ => ?_
  replace h₂ := h₁.trans h₂
  cases r with
  | none =>
    simp only [wp_bind, wp_pure]
    exact runs_end o h₂.tidy fun t ht => h₂.trans ht
  | some ip =>
    replace h₂ : Takes s s₂ o (o.hold ip) := h₂
    dsimp only
    split
    · simp only [wp_bind, wp_pure]
      refine (runs_iunlock False (o.hold ip) h₂.tidy).post ?_
      rintro - s₃ ⟨h₃, -⟩
      exact runs_end (o.hold ip) h₃.tidy fun t ht => (h₂.trans h₃).trans ht
    · simp only [wp_bind, wp_pure]
      exact runs_putEnd h₂.tidy (h₂.covered hc) fun t ht => h₂.trans ht

theorem runs_sysMake (h : s.Tidy) (hc : s.Covered o) (hcwd : 0 < o cwd) (path : List UInt8)
    (type major minor : Int16) : Runs (sysMake cwd path type major minor) s fun _ t => Takes s t o o := by
  simp only [sysMake, wp_bind]
  refine (runs_beginOp False o h).post ?_
  rintro - s₁ ⟨h₁, -⟩
  refine (runs_create h₁.tidy (h₁.covered hc) hcwd path type major minor).post fun r s₂ h₂ => ?_
  replace h₂ := h₁.trans h₂
  cases r with
  | none =>
    simp only [wp_bind, wp_pure]
    exact runs_end o h₂.tidy fun t ht => h₂.trans ht
  | some ip =>
    replace h₂ : Takes s s₂ o (o.hold ip) := h₂
    simp only [wp_bind, wp_pure]
    exact runs_putEnd h₂.tidy (h₂.covered hc) fun t ht => h₂.trans ht

/-! ## chdir and close -/

/-- The current directory is one of the caller's references. -/
theorem runs_sysChdir (h : s.Tidy) (hc : s.Covered (o.hold cwd)) (path : List UInt8) :
    Runs (sysChdir cwd path) s fun r t => Takes s t (o.hold cwd) (o.hold r.2) := by
  simp only [sysChdir, wp_bind]
  refine (runs_beginOp False (o.hold cwd) h).post ?_
  rintro - s₁ ⟨h₁, -⟩
  refine (runs_namei False h₁.tidy (h₁.covered hc) ((h₁.covered hc).held (o.hold_pos cwd)) path).post ?_
  rintro r s₂ ⟨hnone, hsome, -⟩
  cases r with
  | none =>
    have h₂ := h₁.trans (hnone rfl)
    simp only [wp_bind, wp_pure]
    exact runs_end (o.hold cwd) h₂.tidy fun t ht => h₂.trans ht
  | some ip =>
    have h₂ := h₁.trans (hsome ip rfl)
    simp only [wp_bind, wp_deref]
    refine (runs_ilock False h₂.tidy (h₂.covered hc) ((o.hold cwd).hold_pos ip)).post ?_
    rintro - s₃ ⟨h₃, -⟩
    replace h₃ := h₂.trans h₃
    split
    · simp only [wp_bind, wp_pure]
      exact runs_putEnd h₃.tidy (h₃.covered hc) fun t ht => h₃.trans ht
    · simp only [wp_bind, wp_pure]
      refine (runs_iunlock False ((o.hold cwd).hold ip) h₃.tidy).post ?_
      rintro - s₄ ⟨h₄, -⟩
      replace h₄ := h₃.trans h₄
      rw [o.hold_comm cwd ip] at h₄
      refine (runs_iput False h₄.tidy (h₄.covered hc)).post ?_
      rintro - s₅ ⟨h₅, -⟩
      exact runs_end (o.hold ip) h₅.tidy fun t ht => (h₄.trans h₅).trans ht

theorem runs_putCwd (h : s.Tidy) (hc : s.Covered (o.hold cwd)) :
    Runs (putCwd cwd) s fun _ t => Takes s t (o.hold cwd) o := by
  simp only [putCwd, wp_bind]
  refine (runs_beginOp False (o.hold cwd) h).post ?_
  rintro - s₁ ⟨h₁, -⟩
  refine (runs_iput False h₁.tidy (h₁.covered hc)).post ?_
  rintro - s₂ ⟨h₂, -⟩
  exact runs_end o h₂.tidy fun t ht => (h₁.trans h₂).trans ht

/-- The last `close` of a file. -/
theorem runs_fileclose {f : OpenFile} (h : s.Tidy) (hc : s.Covered (o.hold f.ip)) (htype : f.type = .inode)
    (href : f.ref = 1) : Runs (fileclose f) s fun _ t => Takes s t (o.hold f.ip) o := by
  have hclose : fileclose f = (do putCwd f.ip; pure { f with ref := 0, type := .none }) := by
    simp [fileclose, htype, href, putCwd]
  rw [hclose]
  simp only [wp_bind, wp_pure]
  exact runs_putCwd h hc

end Xv6
