-- SUMMARY: Rules for the inode calls that system calls are made of.
import Xv6.FileSystem.Moves

/-! # Inode calls

One rule for each call that `fs.c`'s directory code and `sysfile.c` make on inodes.
A rule gives the step the call takes and says that entries the caller holds stay
as they are. The rules are about calls that return; every stop is admitted.
-/

namespace Xv6

open Prog

/-- The call returns into `Q`, or stops. -/
abbrev Runs {α : Type} (m : FS α) (s : Fs) (Q : α → Fs → Prop) : Prop := wp m Q (fun _ => True) s

theorem mayLog_true (s : Fs) : MayLog (fun _ => True) s := ⟨trivial, .inr trivial⟩

open Fs

variable (A : Prop) {s t : Fs} {o o' : Own} {ip : InodePtr}

/-- What the caller holds and has locked before, it still has in memory. -/
theorem Fs.Steady.loaded {jp : InodePtr} (h : Steady o s t) (hc : t.Covered o') (hjp : s.Loaded jp)
    (ho : 0 < o jp) (ho' : 0 < o' jp) : t.Loaded jp := ⟨hc.held ho', ((h.entry jp ho).2 hjp.2).1⟩

theorem steady_setLog (o : Own) (s : Fs) (l : Log) : Steady o s (s.setLog l) :=
  .of_same (.setLog s l) fun _ _ => ⟨rfl, fun h => ⟨h, rfl⟩⟩

theorem steady_addRef (o : Own) (h : s.Tidy) (hip : s.Held ip) : Steady o s (s.addRef ip) :=
  .of_same ⟨rfl, rfl, h.toInv.addRef_view hip⟩ (entries_setInode o rfl rfl rfl)

/-! ## References -/

/-- `t` is `s` after `iget` of inode `n`, with the entry `ip` as result. -/
structure Fs.Got (s t : Fs) (o : Own) (ip : InodePtr) (n : Nat) : Prop where
  step : Step A s t o (o.hold ip) []
  steady : Steady o s t
  same : Same s t
  log : t.log = s.log
  inum : (t.icache ip).inum = n
  locked : (t.icache ip).locked = (s.icache ip).locked
  old : s.Held ip ∧ (s.icache ip).inum = n ∧ (t.icache ip).toDinode = (s.icache ip).toDinode ∧
      (t.icache ip).valid = (s.icache ip).valid ∨
    (s.icache ip).ref = 0 ∧ (t.icache ip).valid = false
  icache : ∀ jp, jp ≠ ip → t.icache jp = s.icache jp

theorem wp_iget_got {E : Stop → Prop} {n : Nat} {Q : InodePtr → Fs → Prop} (h : s.Tidy) (hc : s.Covered o)
    (hn : n < s.sb.ninodes)
    (hfull : (∀ jp, (s.icache jp).ref ≠ 0) → (∀ jp, s.Held jp → (s.icache jp).inum ≠ n) → E .igetNoInodes)
    (hQ : ∀ ip t, Got A s t o ip n → Q ip t) : wp (iget n) Q E s := by
  refine wp_iget_full hfull (fun ip hip hinum => hQ ip _ ?_) fun ip href hnew => hQ ip _ ?_
  · have hentry : (s.addRef ip).icache ip = { s.icache ip with ref := (s.icache ip).ref + 1 } :=
      setInode_icache_same _ _ _
    refine ⟨.addRef h hip, steady_addRef o h hip, ⟨rfl, rfl, h.toInv.addRef_view hip⟩, rfl, ?_, ?_,
      .inl ⟨hip, hinum, ?_, ?_⟩, fun jp hjp => setInode_icache_ne s _ hjp⟩ <;> rw [hentry]
    exact hinum
  · have hentry : (s.recycle ip n).icache ip = { s.icache ip with inum := n, ref := 1, valid := false } :=
      setInode_icache_same _ _ _
    have hsame : Same s (s.recycle ip n) := ⟨rfl, rfl, h.toInv.recycle_view href hnew⟩
    refine ⟨.recycle h hn href hnew, .of_same hsame (entries_recycle hc href n), hsame, rfl, ?_, ?_,
      .inr ⟨href, ?_⟩, fun jp hjp => setInode_icache_ne s _ hjp⟩ <;> rw [hentry]

theorem runs_iget (h : s.Tidy) (hc : s.Covered o) {n : Nat} (hn : n < s.sb.ninodes) :
    Runs (iget n) s fun ip t => Step A s t o (o.hold ip) [] ∧ Steady o s t ∧ (t.icache ip).inum = n :=
  wp_iget_got A h hc hn (fun _ _ => trivial) fun _ _ hg => ⟨hg.step, hg.steady, hg.inum⟩

theorem runs_idup (o : Own) (h : s.Tidy) (hip : s.Held ip) :
    Runs (idup ip) s fun r t => r = ip ∧ Step A s t o (o.hold ip) [] ∧ Steady o s t := by
  simp only [idup, wp_bind, wp_imodify, wp_pure]
  exact ⟨trivial, .addRef h hip, steady_addRef o h hip⟩

/-- `iput` of an inode that nobody has locked takes a step. -/
theorem wp_iput {E : Stop → Prop} (h : s.Tidy) (hc : s.Covered (o.hold ip)) (hlog : MayLog E s)
    (hasleep : (s.icache ip).locked = true → E .asleep) :
    wp (iput ip) (fun _ t => Step A s t (o.hold ip) o [] ∧ Steady o s t) E s := by
  by_cases hlast : (s.icache ip).valid = true ∧ (s.icache ip).nlink = 0 ∧ (s.icache ip).ref = 1
  · have hip : s.Loaded ip := ⟨hc.held (o.hold_pos ip), hlast.1⟩
    refine wp_iput_last h.toWf hip.caches (h.toInv.allocated hip.caches) hlast hlog hasleep fun t r => ?_
    exact ⟨.reaped h hip.caches r hc hlast.2.2 hlast.2.1, entries_reaped hc hlast.2.2 r,
      fun _ => reaped_inode h hip.caches r, fun _ _ hp hne => (h.toInv.reaped_prune hip.caches r).node hp hne⟩
  · exact wp_iput_drop hlast hasleep fun _ =>
      ⟨.release h, entries_release o s ip, fun _ => release_inode h,
        fun _ _ hp hne => (h.toInv.release_prune ip).node hp hne⟩

theorem runs_iput (h : s.Tidy) (hc : s.Covered (o.hold ip)) :
    Runs (iput ip) s fun _ t => Step A s t (o.hold ip) o [] ∧ Steady o s t :=
  wp_iput A h hc (mayLog_true s) fun _ => trivial

/-! ## Locks -/

theorem runs_ilock (h : s.Tidy) (hc : s.Covered o) (hip : 0 < o ip) :
    Runs (ilock ip) s fun _ t => Step A s t o o [] ∧ Steady o s t ∧ t.Loaded ip := by
  have hheld := hc.held hip
  refine wp_ilock h.sbWf hheld (h.cacheRange ip hheld) (fun _ => trivial) (fun _ => trivial) fun htyped => ?_
  have hcaches := lockInode_caches hheld
  exact ⟨.lockInode h hheld htyped, .of_same (.lockInode h.toInv hheld) (entries_lockInode o s ip),
    hcaches.1, hcaches.2.1⟩

theorem runs_iunlock (o : Own) (h : s.Tidy) :
    Runs (iunlock ip) s fun _ t => Step A s t o o [] ∧ Steady o s t :=
  wp_iunlock (fun _ => trivial) ⟨.unlockInode h ip, .of_same (.unlockInode h.toInv ip)
    (entries_setInode o rfl rfl rfl)⟩

theorem runs_iunlockput (h : s.Tidy) (hc : s.Covered (o.hold ip)) :
    Runs (iunlockput ip) s fun _ t => Step A s t (o.hold ip) o [] ∧ Steady o s t := by
  simp only [iunlockput, wp_bind]
  refine (runs_iunlock A (o.hold ip) h).post ?_
  rintro - t ⟨hst, hsteady⟩
  refine (runs_iput A hst.tidy (hst.covered hc)).post ?_
  rintro - u ⟨hst', hsteady'⟩
  exact ⟨hst.trans hst', (hsteady.mono (o.le_hold ip)).trans hsteady'⟩

/-! ## Transactions -/

theorem runs_beginOp (o : Own) (h : s.Tidy) :
    Runs beginOp s fun _ t => Step A s t o o [] ∧ Steady o s t :=
  wp_beginOp trivial ⟨.setLog h rfl, steady_setLog o s _⟩

theorem runs_endOp (o : Own) (h : s.Tidy) :
    Runs endOp s fun _ t => Step A s t o o [] ∧ Steady o s t :=
  wp_endOp.mpr ⟨.setLog h rfl, steady_setLog o s _⟩

/-! ## Fields -/

/-- Assignments to an inode's fields, written through by `iupdate`. -/
theorem runs_assign (h : s.Tidy) (hip : s.Loaded ip) {major minor nlink : Int16} {Q : Unit → Fs → Prop}
    (hQ : Q () (s.assign ip major minor nlink)) :
    Runs (iupdate ip)
      (s.setInode ip { s.icache ip with major := major, minor := minor, nlink := nlink }) Q := by
  refine wp_iupdate h.sbWf ?_ (mayLog_true s).write hQ
  rw [setInode_icache_same]
  exact h.cacheRange ip hip.1

/-- `t` is `s` after `ialloc` has claimed inode `i` and `ilock` has read it into `ip`. -/
structure Fs.Claimed (s t : Fs) (o : Own) (ip : InodePtr) (i : Nat) (type : Int16) : Prop where
  tidy : t.Tidy
  sb : t.sb = s.sb
  refs : ∀ jp, (t.icache jp).ref - o.hold ip jp = (s.icache jp).ref - o jp
  agree : ∀ P, s.Agree P → t.Agree P
  entries : Entries o s t
  loaded : t.Loaded ip
  inum : (t.icache ip).inum = i
  entry : (t.icache ip).toDinode = { Dinode.blank with type := type }
  fresh : ¬ s.Loaded ip
  icache : ∀ jp, jp ≠ ip → t.icache jp = s.icache jp
  view : ∀ j, j ≠ i → t.view j = s.view j
  trace : t.log.trace = s.sb.IBLOCK i :: s.log.trace

section Claim

variable {i : Nat} {type major minor nlink : Int16}

theorem Fs.claimInode_dinode (j : Nat) : (s.claimInode i type).dinode j =
    if j = i then { Dinode.blank with type := type } else s.dinode j := putDinode_dinode s i _ j

theorem Fs.Agree.claimInode (h : s.Inv) (hfree : (s.dinode i).type = 0) {P : Int16 → Prop} (hP : s.Agree P) :
    (s.claimInode i type).Agree P := by
  intro jp hjp htype
  have hjp' : s.Loaded jp := hjp
  have hne : (s.icache jp).inum ≠ i := fun heq => h.not_caches_of_free hfree jp ⟨hjp'.1, hjp'.2, heq⟩
  exact ((claimInode_dinode _).trans (if_neg hne)).trans (hP jp hjp' htype)

theorem Fs.Tidy.claimInode (h : s.Tidy) (hi : i < s.sb.ninodes) (hfree : (s.dinode i).type = 0) :
    (s.claimInode i type).Tidy := by
  have hview := h.toInv.claimInode_view hfree type
  refine h.of (h.toInv.claimInode hi hfree type) rfl (fun j _ _ => ?_) (h.agree.claimInode h.toInv hfree)
    fun jp hjp => ?_
  · by_cases hj : j = i
    · -- a new directory is empty
      have hsize : ((s.claimInode i type).view j).size.toNat = 0 := by
        rw [hview, if_pos hj]
        rfl
      right
      unfold Solid Named
      rw [hsize]
      refine ⟨fun bn hbn => absurd hbn (Nat.not_lt_zero _), fun k hk => ?_⟩
      simp [DIRENTSIZE] at hk
    · left
      refine .of_view_eq ?_ h.toWf rfl fun b hb => putDinode_data h.sbWf hi _ hb
      rw [hview, if_neg hj]
  · have hjp' : s.Loaded jp := hjp
    have hne : (s.icache jp).inum ≠ i := fun heq =>
      h.toInv.not_caches_of_free hfree jp ⟨hjp'.1, hjp'.2, heq⟩
    exact congrArg Dinode.nlink ((claimInode_dinode _).trans (if_neg hne)) |>.trans (h.nlink jp hjp')

/-- Reading the claimed inode into an entry that was not valid. -/
theorem Fs.Claimed.of_entry (h : s.Tidy) (hfree : (s.dinode i).type = 0)
    (hst : Step True (s.claimInode i type) t o (o.hold ip) []) (hentries : Entries o s t)
    (hsame : Same (s.claimInode i type) t) (htrace : t.log.trace = (s.claimInode i type).log.trace)
    (hothers : ∀ jp, jp ≠ ip → t.icache jp = s.icache jp) (hinum : (t.icache ip).inum = i)
    (hvalid : (t.icache ip).valid = false) (hfresh : ¬ s.Loaded ip) (hheld : t.Held ip)
    (htyped : t.Typed ip) : Claimed s (t.lockInode ip) o ip i type := by
  have hlock : Step True t (t.lockInode ip) (o.hold ip) (o.hold ip) [] := .lockInode hst.tidy hheld htyped
  have hcaches := lockInode_caches hheld
  have hdinode : t.dinode i = { Dinode.blank with type := type } := by
    unfold Fs.dinode
    rw [hsame.sb, hsame.disk]
    exact (claimInode_dinode i).trans (if_pos rfl)
  refine
    { tidy := hlock.tidy, sb := hst.sb, refs := fun jp => (hlock.refs jp).trans (hst.refs jp),
      agree := fun P hP => hlock.agree P (hst.agree P (hP.claimInode h.toInv hfree)),
      entries := hentries.trans (entries_lockInode o t ip), loaded := ⟨hcaches.1, hcaches.2.1⟩,
      inum := hcaches.2.2.trans hinum, entry := ?_, fresh := hfresh,
      icache := fun jp hj => (lockInode_icache_ne hj).trans (hothers jp hj), view := fun j hj => ?_,
      trace := htrace }
  · unfold Fs.lockInode
    rw [setInode_icache_same, hinum, hdinode]
    simp [Inode.lock, hvalid]
  · rw [hst.tidy.toInv.lockInode_view hheld, hsame.view, h.toInv.claimInode_view hfree, if_neg hj]

theorem runs_ialloc (h : s.Tidy) (hc : s.Covered o) :
    Runs (ialloc type) s fun ip t => Runs (ilock ip) t fun _ u => ∃ i, Claimed s u o ip i type := by
  refine wp_ialloc h.sbWf (mayLog_true s) trivial fun i hi hfree => ?_
  have hc' : (s.claimInode i type).Covered o := hc
  have ht : (s.claimInode i type).Tidy := h.claimInode hi hfree
  refine wp_iget trivial (fun ip hip hinum => ?_) fun ip href hnew => ?_
  · -- somebody got hold of the inode while it was free, and has not locked it
    have hfresh : ¬ s.Loaded ip := fun hl => h.toInv.not_caches_of_free hfree ip ⟨hl.1, hl.2, hinum⟩
    have hvalid : (s.icache ip).valid = false := by
      by_contra hv
      exact hfresh ⟨hip, by simpa using hv⟩
    have hst : Step True _ _ o (o.hold ip) [] := .addRef ht hip
    have hheld := (hst.covered hc').held (o.hold_pos ip)
    refine wp_ilock ht.sbWf hheld (hst.tidy.cacheRange ip hheld) (fun _ => trivial) (fun _ => trivial)
      fun htyped => ⟨i, .of_entry h hfree hst (entries_setInode o rfl rfl rfl)
        ⟨rfl, rfl, ht.toInv.addRef_view hip⟩ rfl (fun jp hj => setInode_icache_ne _ _ hj) ?_ ?_ hfresh hheld htyped⟩
    · rw [Fs.addRef, setInode_icache_same]
      exact hinum
    · rw [Fs.addRef, setInode_icache_same]
      exact hvalid
  · have hfresh : ¬ s.Loaded ip := fun hl => by
      have hpos := hl.1
      unfold Held at hpos
      exact absurd hpos (href ▸ lt_irrefl _)
    have hst : Step True _ _ o (o.hold ip) [] := .recycle ht hi href hnew
    have hheld := (hst.covered hc').held (o.hold_pos ip)
    refine wp_ilock ht.sbWf hheld (hst.tidy.cacheRange ip hheld) (fun _ => trivial) (fun _ => trivial)
      fun htyped => ⟨i, .of_entry h hfree hst (entries_recycle hc' href i)
        ⟨rfl, rfl, ht.toInv.recycle_view href hnew⟩ rfl (fun jp hj => setInode_icache_ne _ _ hj) ?_ ?_
        hfresh hheld htyped⟩ <;> rw [Fs.recycle, setInode_icache_same]

/-- The new inode gets its first link. -/
theorem Fs.Claimed.step (hcl : Claimed s t o ip i type) (hnlink : nlink ≠ 0) :
    Step A s (t.assign ip major minor nlink) o (o.hold ip) [s.sb.IBLOCK i] := by
  have hcaches : t.Caches ip i := ⟨hcl.loaded.1, hcl.loaded.2, hcl.inum⟩
  refine ⟨hcl.tidy.assign hcaches, hcl.sb, fun jp => by rw [assign_ref, hcl.refs jp],
    fun P hP => (hcl.agree P hP).assign hcl.tidy.toInv hcaches, fun ha hb j hal hj => ?_, fun _ _ => ?_⟩
  · unfold Allocated at hal
    rw [assign_view hcl.tidy.toInv hcaches] at hal hj
    by_cases hji : j = i
    · rw [if_pos hji] at hj
      exact absurd hj hnlink
    · rw [if_neg hji, hcl.view j hji] at hal hj
      obtain ⟨jp, hjp, hlt⟩ := hb j ⟨hcl.sb ▸ hal.1, hal.2⟩ hj
      have hne : jp ≠ ip := by
        rintro rfl
        exact hcl.fresh ⟨hjp.1, hjp.2.1⟩
      refine ⟨jp, ?_, ?_⟩
      · unfold Caches
        rw [assign_icache_ne hne, hcl.icache jp hne]
        exact hjp
      · rw [assign_icache_ne hne, hcl.icache jp hne, o.hold_ne ip hne]
        exact hlt
  · refine ⟨[s.sb.IBLOCK i, s.sb.IBLOCK i], ?_, by simp⟩
    simp [Fs.assign, hcl.inum, hcl.sb, hcl.trace]

end Claim

end Xv6
