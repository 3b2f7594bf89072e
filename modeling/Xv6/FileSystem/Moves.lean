-- SUMMARY: Changes of the inode cache that keep the directory layer's invariant.
import Xv6.FileSystem.Tidy

/-! # Moves of the inode cache

Every change that a call on an inode makes to the cache and to the inode's disk
copy is a `Fs.Step`: taking and dropping a reference, taking and releasing the lock,
freeing an inode without links, and assigning to its fields.
-/

namespace Xv6

/-! ## References and locks -/

namespace Fs

variable {A : Prop} {s t : Fs} {o o' : Own} {ip : InodePtr} {i : Nat}

/-- Entries change, and no inode does. -/
theorem Step.of_same (h : s.Tidy) (hsame : Same s t) (hinv : t.Inv)
    (hrefs : ∀ jp, (t.icache jp).ref - o' jp = (s.icache jp).ref - o jp)
    (htrace : t.log.trace = s.log.trace)
    (hloaded : ∀ jp, t.Loaded jp → (s.Loaded jp ∧ (t.icache jp).inum = (s.icache jp).inum ∧
      (t.icache jp).toDinode = (s.icache jp).toDinode) ∨
      s.dinode (t.icache jp).inum = (t.icache jp).toDinode)
    (hkeep : ∀ jp, s.Loaded jp → (o jp : Int) < (s.icache jp).ref →
      (t.icache jp).inum = (s.icache jp).inum ∧ (t.icache jp).valid = true) :
    Step A s t o o' [] := by
  have hdinode : ∀ j, t.dinode j = s.dinode j := fun j => by
    unfold dinode
    rw [hsame.sb, hsame.disk]
  have hagree : ∀ P, s.Agree P → t.Agree P := by
    intro P hP jp hjp htype
    rw [hdinode]
    rcases hloaded jp hjp with ⟨hjp', hinum, hd⟩ | hd
    · rw [hinum, hd]
      refine hP jp hjp' ?_
      rw [← show (t.icache jp).type = (s.icache jp).type from congrArg Dinode.type hd]
      exact htype
    · exact hd
  refine ⟨h.of hinv hsame.sb (fun j _ _ => .inl (hsame.sameFile j)) (hagree _ h.agree) fun jp hjp => ?_,
    hsame.sb, hrefs, hagree, fun _ hb j hal hn => ?_, fun _ _ => .of_eq htrace []⟩
  · rw [hdinode]
    rcases hloaded jp hjp with ⟨hjp', hinum, hd⟩ | hd
    · rw [hinum, show (t.icache jp).nlink = (s.icache jp).nlink from congrArg Dinode.nlink hd]
      exact h.nlink jp hjp'
    · rw [hd]
  · unfold Allocated at hal
    rw [hsame.view, hsame.sb] at hal
    rw [hsame.view] at hn
    obtain ⟨jp, hc, href⟩ := hb j hal hn
    obtain ⟨hinum, hvalid⟩ := hkeep jp ⟨hc.1, hc.2.1⟩ href
    have href' := hrefs jp
    exact ⟨jp, ⟨by omega, hvalid, hinum.trans hc.2.2⟩, by omega⟩

theorem Step.setLog (h : s.Tidy) {l : Log} (hl : l.trace = s.log.trace) : Step A s (s.setLog l) o o [] :=
  .of_same h (.setLog s l) (h.toInv.setLog l) (fun _ => rfl) hl (fun _ hjp => .inl ⟨hjp, rfl, rfl⟩)
    fun _ hjp _ => ⟨rfl, hjp.2⟩

theorem lockInode_icache_ne {jp : InodePtr} (hj : jp ≠ ip) : (s.lockInode ip).icache jp = s.icache jp :=
  setInode_icache_ne _ _ hj

theorem lockInode_ref (jp : InodePtr) : ((s.lockInode ip).icache jp).ref = (s.icache jp).ref := by
  by_cases hj : jp = ip
  · subst hj
    unfold lockInode
    rw [setInode_icache_same]
    rfl
  · rw [lockInode_icache_ne hj]

theorem entries_lockInode (o : Own) (s : Fs) (ip : InodePtr) : Entries o s (s.lockInode ip) := by
  intro jp _
  by_cases hj : jp = ip
  · subst hj
    unfold lockInode
    rw [setInode_icache_same]
    exact ⟨rfl, fun hvalid => ⟨rfl, by simp [Inode.lock, hvalid]⟩⟩
  · rw [lockInode_icache_ne hj]
    exact ⟨rfl, fun h => ⟨h, rfl⟩⟩

theorem Step.lockInode (h : s.Tidy) (hip : s.Held ip) (htyped : s.Typed ip) :
    Step A s (s.lockInode ip) o o [] := by
  have hsteady := entries_lockInode (fun _ => 1) s ip
  refine .of_same h (.lockInode h.toInv hip) (h.toInv.lockInode hip htyped)
    (fun jp => by rw [lockInode_ref]) rfl (fun jp hjp => ?_) fun jp hjp _ => ?_
  · by_cases hvalid : (s.icache jp).valid = true
    · obtain ⟨hinum, hd⟩ := hsteady jp Nat.one_pos
      refine .inl ⟨⟨?_, hvalid⟩, hinum, (hd hvalid).2⟩
      have := hjp.1
      unfold Held at *
      rwa [lockInode_ref] at this
    · by_cases hj : jp = ip
      · subst hj
        refine .inr ?_
        unfold Fs.lockInode
        rw [setInode_icache_same]
        simp [Inode.lock, hvalid]
      · have hvalid' := hjp.2
        rw [lockInode_icache_ne hj] at hvalid'
        exact absurd hvalid' hvalid
  · obtain ⟨hinum, hd⟩ := hsteady jp Nat.one_pos
    exact ⟨hinum, (hd hjp.2).1⟩

theorem refs_setInode {x : Inode} (ho : ∀ jp, jp ≠ ip → o' jp = o jp)
    (hx : x.ref - o' ip = (s.icache ip).ref - o ip) (jp : InodePtr) :
    ((s.setInode ip x).icache jp).ref - o' jp = (s.icache jp).ref - o jp := by
  by_cases hj : jp = ip
  · subst hj
    rw [setInode_icache_same]
    exact hx
  · rw [setInode_icache_ne _ _ hj, ho jp hj]

/-- An entry gets other references or another lock. -/
theorem Step.setInode (h : s.Tidy) {x : Inode} (hd : x.toDinode = (s.icache ip).toDinode)
    (hinum : x.inum = (s.icache ip).inum) (hvalid : x.valid = (s.icache ip).valid)
    (href : 0 < x.ref ↔ 0 < (s.icache ip).ref) (ho : ∀ jp, jp ≠ ip → o' jp = o jp)
    (hx : x.ref - o' ip = (s.icache ip).ref - o ip) : Step A s (s.setInode ip x) o o' [] := by
  have hsame : Same s (s.setInode ip x) := by
    refine ⟨rfl, rfl, fun j => ?_⟩
    rw [(view_setInode h.cacheInj ip x href hvalid hinum).2]
    split
    · next hc => rw [hd, view_of_caches h.cacheInj hc]
    · rfl
  have hinv : (s.setInode ip x).Inv := h.toInv.setInode_of_size x href hvalid hinum
    (congrArg Dinode.type hd) (congrArg Dinode.addrs hd) (congrArg Dinode.size hd)
  refine .of_same h hsame hinv (refs_setInode ho hx) rfl (fun jp hjp => .inl ?_) fun jp hjp _ => ?_
  · unfold Loaded Held at *
    by_cases hj : jp = ip
    · subst hj
      rw [setInode_icache_same] at hjp ⊢
      exact ⟨⟨href.mp hjp.1, hvalid ▸ hjp.2⟩, hinum, hd⟩
    · rw [setInode_icache_ne _ _ hj] at hjp ⊢
      exact ⟨hjp, rfl, rfl⟩
  · by_cases hj : jp = ip
    · subst hj
      rw [setInode_icache_same]
      exact ⟨hinum, hvalid ▸ hjp.2⟩
    · rw [setInode_icache_ne _ _ hj]
      exact ⟨rfl, hjp.2⟩

theorem entries_setInode (o : Own) {x : Inode} (hd : x.toDinode = (s.icache ip).toDinode)
    (hinum : x.inum = (s.icache ip).inum) (hvalid : x.valid = (s.icache ip).valid) :
    Entries o s (s.setInode ip x) := by
  intro jp _
  by_cases hj : jp = ip
  · subst hj
    rw [setInode_icache_same]
    exact ⟨hinum, fun h => ⟨hvalid ▸ h, hd⟩⟩
  · rw [setInode_icache_ne _ _ hj]
    exact ⟨rfl, fun h => ⟨h, rfl⟩⟩

theorem Step.unlockInode (h : s.Tidy) (ip : InodePtr) : Step A s (s.unlockInode ip) o o [] :=
  .setInode h (x := { s.icache ip with locked := false }) rfl rfl rfl Iff.rfl (fun _ _ => rfl) rfl

theorem Step.addRef (h : s.Tidy) (hip : s.Held ip) : Step A s (s.addRef ip) o (o.hold ip) [] := by
  have hsame := o.hold_same ip
  unfold Held at hip
  refine .setInode h (x := { s.icache ip with ref := (s.icache ip).ref + 1 }) rfl rfl rfl ?_
    (fun jp hj => o.hold_ne ip hj) ?_ <;> dsimp only <;> omega

theorem Step.recycle (h : s.Tidy) {n : Nat} (hn : n < s.sb.ninodes) (href : (s.icache ip).ref = 0)
    (hnew : ∀ jp, s.Held jp → (s.icache jp).inum ≠ n) : Step A s (s.recycle ip n) o (o.hold ip) [] := by
  have hsame := o.hold_same ip
  refine .of_same h ⟨rfl, rfl, h.toInv.recycle_view href hnew⟩ (h.toInv.recycle hn href hnew)
    (refs_setInode (fun jp hj => o.hold_ne ip hj) ?_) rfl (fun jp hjp => .inl ?_) fun jp hjp _ => ?_
  · dsimp only
    omega
  · have hj : jp ≠ ip := by
      rintro rfl
      have hvalid := hjp.2
      unfold Fs.recycle at hvalid
      rw [setInode_icache_same] at hvalid
      cases hvalid
    unfold Loaded Held Fs.recycle at *
    rw [setInode_icache_ne _ _ hj] at hjp ⊢
    exact ⟨hjp, rfl, rfl⟩
  · have hj : jp ≠ ip := by
      rintro rfl
      have := hjp.1
      unfold Held at this
      omega
    unfold Fs.recycle
    rw [setInode_icache_ne _ _ hj]
    exact ⟨rfl, hjp.2⟩

/-- An entry without references is nobody's. -/
theorem entries_recycle (hc : s.Covered o) (href : (s.icache ip).ref = 0) (n : Nat) :
    Entries o s (s.recycle ip n) := by
  intro jp hjp
  have hj : jp ≠ ip := by
    rintro rfl
    have := hc jp
    omega
  unfold Fs.recycle
  rw [setInode_icache_ne _ _ hj]
  exact ⟨rfl, fun h => ⟨h, rfl⟩⟩

theorem release_icache_ne {jp : InodePtr} (hj : jp ≠ ip) : (s.release ip).icache jp = s.icache jp :=
  setInode_icache_ne _ _ hj

theorem entries_release (o : Own) (s : Fs) (ip : InodePtr) : Entries o s (s.release ip) :=
  entries_setInode o rfl rfl rfl

/-- If the last reference goes the disk copy takes over, which has the same type and
    links, and for a directory the same contents. -/
theorem release_inode (h : s.Tidy) {j : Nat} (hal : (s.release ip).Allocated j) :
    SameInode s (s.release ip) j := by
  have hview := h.toInv.release_view ip j
  by_cases hlast : s.Caches ip j ∧ (s.icache ip).ref = 1
  · rw [if_pos hlast] at hview
    have hip : s.Loaded ip := ⟨hlast.1.1, hlast.1.2.1⟩
    have hs := h.synced ip j hlast.1
    have hcached := view_of_caches h.cacheInj hlast.1
    have hnlink := h.nlink ip hip
    rw [hlast.1.2.2] at hnlink
    refine ⟨h.toInv.allocated hlast.1, ?_, ?_, fun hdir => ?_⟩
    · rw [hview, hcached, hs.type]
    · rw [hview, hcached, hnlink]
    · rw [hview, hs.type] at hdir
      have hd := h.agree ip hip hdir
      rw [hlast.1.2.2] at hd
      exact .of_view_eq (by rw [hview, hd, hcached]) h.toWf rfl fun _ _ => rfl
  · rw [if_neg hlast] at hview
    unfold Allocated at hal
    rw [hview] at hal
    exact ⟨hal, by rw [hview], by rw [hview], fun _ => .of_view_eq hview h.toWf rfl fun _ _ => rfl⟩

/-- A reference goes. If it is the last one the disk copy takes over, which for a
    directory is the same. -/
theorem Step.release (h : s.Tidy) : Step A s (s.release ip) (o.hold ip) o [] := by
  have hsame := o.hold_same ip
  have hcopy : ∀ jp, ((s.release ip).icache jp).inum = (s.icache jp).inum ∧
      ((s.release ip).icache jp).toDinode = (s.icache jp).toDinode := by
    intro jp
    by_cases hj : jp = ip
    · subst hj
      unfold Fs.release
      rw [setInode_icache_same]
      exact ⟨rfl, rfl⟩
    · rw [release_icache_ne hj]
      exact ⟨rfl, rfl⟩
  have hloaded : ∀ jp, (s.release ip).Loaded jp → s.Loaded jp := by
    intro jp hjp
    unfold Loaded Held at *
    by_cases hj : jp = ip
    · subst hj
      unfold Fs.release at hjp
      rw [setInode_icache_same] at hjp
      exact ⟨by have := hjp.1; dsimp only at this; omega, hjp.2⟩
    · rw [release_icache_ne hj] at hjp
      exact hjp
  have hagree : ∀ P, s.Agree P → (s.release ip).Agree P := by
    intro P hP jp hjp htype
    rw [show ((s.release ip).icache jp).type = _ from congrArg Dinode.type (hcopy jp).2] at htype
    rw [(hcopy jp).1, (hcopy jp).2]
    exact hP jp (hloaded jp hjp) htype
  refine ⟨h.of (h.toInv.release ip) rfl (fun j hal htype => .inl ((release_inode h hal).dir htype))
      (hagree _ h.agree) fun jp hjp => ?_,
    rfl, refs_setInode (fun jp hj => (o.hold_ne ip hj).symm) ?_, hagree, fun _ hb j hal hn => ?_,
    fun _ _ => .of_eq rfl []⟩
  · have hd : ((s.release ip).icache jp).nlink = _ := congrArg Dinode.nlink (hcopy jp).2
    rw [hd, (hcopy jp).1]
    exact h.nlink jp (hloaded jp hjp)
  · dsimp only
    omega
  · -- an inode without links keeps a reference of somebody else
    have hsame' := release_inode h hal
    obtain ⟨jp, hcj, hlt⟩ := hb j hsame'.allocated (hsame'.nlink ▸ hn)
    by_cases hj : jp = ip
    · subst hj
      refine ⟨jp, ?_, ?_⟩
      · unfold Caches Fs.release at *
        rw [setInode_icache_same]
        exact ⟨by dsimp only; omega, hcj.2⟩
      · unfold Fs.release
        rw [setInode_icache_same]
        dsimp only
        omega
    · refine ⟨jp, ?_, ?_⟩
      · unfold Caches at *
        rw [release_icache_ne hj]
        exact hcj
      · rw [release_icache_ne hj, ← o.hold_ne ip hj]
        exact hlt

section Reaped

variable (h : s.Tidy) (hip : s.Caches ip i) (r : Reaped s t ip i)
include h hip r

theorem reaped_loaded {jp : InodePtr} (hjp : t.Loaded jp) :
    t.icache jp = s.icache jp ∧ s.Loaded jp ∧ t.dinode (s.icache jp).inum = s.dinode (s.icache jp).inum := by
  have hj : jp ≠ ip := by
    rintro rfl
    have := hjp.1
    unfold Held at this
    rw [r.entry.1] at this
    exact absurd this (lt_irrefl _)
  have hentry := r.icache jp hj
  have hjp' : s.Loaded jp := by
    unfold Loaded Held at *
    rw [← hentry]
    exact hjp
  refine ⟨hentry, hjp', r.dinode _ (h.cacheRange jp hjp'.1) fun heq => ?_⟩
  exact hj (h.cacheInj jp ip hjp'.1 hip.1 (heq.trans hip.2.2.symm))

theorem reaped_inode {j : Nat} (hal : t.Allocated j) : SameInode s t j := by
  have hne : j ≠ i := fun heq => h.toInv.reaped_free hip r (heq ▸ hal)
  have hlt : j < s.sb.ninodes := r.sb ▸ hal.1
  have hview := h.toInv.reaped_view hip r hlt hne
  refine ⟨⟨hlt, ?_⟩, by rw [hview], by rw [hview], fun _ => .of_view_eq hview h.toWf r.sb r.data⟩
  rw [← hview]
  exact hal.2

theorem Tidy.reaped : t.Tidy := by
  refine h.of (h.toInv.reaped hip r) r.sb (fun j hal htype => .inl ((reaped_inode h hip r hal).dir htype))
    (fun jp hjp htype => ?_) fun jp hjp => ?_
  · obtain ⟨hentry, hjp', hd⟩ := reaped_loaded h hip r hjp
    rw [hentry] at htype ⊢
    rw [hd]
    exact h.agree jp hjp' htype
  · obtain ⟨hentry, hjp', hd⟩ := reaped_loaded h hip r hjp
    rw [hentry, hd]
    exact h.nlink jp hjp'

theorem Agree.reaped {P : Int16 → Prop} (hP : s.Agree P) : t.Agree P := by
  intro jp hjp htype
  obtain ⟨hentry, hjp', hd⟩ := reaped_loaded h hip r hjp
  rw [hentry] at htype ⊢
  rw [hd]
  exact hP jp hjp' htype

/-- Nobody but the call itself held the inode. -/
theorem Step.reaped (hc : s.Covered (o.hold ip)) (href : (s.icache ip).ref = 1)
    (hnlink : (s.icache ip).nlink = 0) : Step A s t (o.hold ip) o [] := by
  have hge := hc ip
  have hsame := o.hold_same ip
  have hno : ¬ s.Backed (o.hold ip) := by
    intro hb
    obtain ⟨jp, hcj, hlt⟩ := hb i (h.toInv.allocated hip) (by rw [view_of_caches h.cacheInj hip, hnlink])
    obtain rfl := h.cacheInj jp ip hcj.1 hip.1 (hcj.2.2.trans hip.2.2.symm)
    omega
  refine ⟨h.reaped hip r, r.sb, fun jp => ?_, fun P => Agree.reaped h hip r, fun _ hb => absurd hb hno,
    fun _ hb => absurd hb hno⟩
  by_cases hj : jp = ip
  · subst hj
    rw [r.entry.1]
    omega
  · rw [r.icache jp hj, o.hold_ne ip hj]

end Reaped

theorem entries_reaped (hc : s.Covered (o.hold ip)) (href : (s.icache ip).ref = 1) (r : Reaped s t ip i) :
    Entries o s t := by
  intro jp hjp
  have hj : jp ≠ ip := by
    rintro rfl
    have hge := hc jp
    have hsame := o.hold_same jp
    omega
  rw [r.icache jp hj]
  exact ⟨rfl, fun h => ⟨h, rfl⟩⟩

/-! ## Inode fields -/

/-- The state after assignments to `ip->major`, `ip->minor` and `ip->nlink` and
    `iupdate(ip)`. -/
def assign (s : Fs) (ip : InodePtr) (major minor nlink : Int16) : Fs :=
  (s.setInode ip { s.icache ip with major := major, minor := minor, nlink := nlink }).flush ip

section Assign

variable {major minor nlink : Int16}

theorem assign_icache_ne {jp : InodePtr} (hj : jp ≠ ip) :
    (s.assign ip major minor nlink).icache jp = s.icache jp := setInode_icache_ne _ _ hj

theorem assign_icache_same : (s.assign ip major minor nlink).icache ip =
    { s.icache ip with major := major, minor := minor, nlink := nlink } := setInode_icache_same _ _ _

private theorem assign_setInode_inv (h : s.Inv) :
    (s.setInode ip { s.icache ip with major := major, minor := minor, nlink := nlink }).Inv :=
  h.setInode_of_size { s.icache ip with major := major, minor := minor, nlink := nlink } Iff.rfl rfl rfl
    rfl rfl rfl

private theorem assign_setInode_caches (hip : s.Caches ip i) :
    (s.setInode ip { s.icache ip with major := major, minor := minor, nlink := nlink }).Caches ip i := by
  unfold Caches at *
  rw [setInode_icache_same]
  exact hip

theorem assign_view (h : s.Inv) (hip : s.Caches ip i) (j : Nat) :
    (s.assign ip major minor nlink).view j =
      if j = i then { s.view i with major := major, minor := minor, nlink := nlink } else s.view j := by
  have hinv : (s.setInode ip { s.icache ip with major := major, minor := minor, nlink := nlink }).Inv :=
    assign_setInode_inv h
  have hview := (view_setInode h.cacheInj ip
    { s.icache ip with major := major, minor := minor, nlink := nlink } Iff.rfl rfl rfl).2 j
  unfold assign
  rw [flush_view hinv.cacheInj (assign_setInode_caches hip), hview]
  by_cases hj : j = i
  · subst hj
    rw [if_pos hip, if_pos rfl, view_of_caches h.cacheInj hip]
  · rw [if_neg hj, if_neg]
    exact fun hc => hj (hc.2.2.symm.trans hip.2.2)

theorem Inv.assign (h : s.Inv) (hip : s.Caches ip i) : (s.assign ip major minor nlink).Inv := by
  have hinv : (s.setInode ip { s.icache ip with major := major, minor := minor, nlink := nlink }).Inv :=
    assign_setInode_inv h
  refine Inv.flush hinv.toWf (assign_setInode_caches hip) ?_ fun jp j _ hjp => hinv.synced jp j hjp
  rw [setInode_icache_same]
  exact (h.synced ip i hip).typed

theorem assign_dinode (j : Nat) : (s.assign ip major minor nlink).dinode j =
    if j = (s.icache ip).inum then { s.icache ip with major := major, minor := minor, nlink := nlink }.toDinode
    else s.dinode j := by
  unfold assign
  rw [flush_dinode, setInode_icache_same]
  rfl

theorem assign_loaded {jp : InodePtr} :
    (s.assign ip major minor nlink).Loaded jp ↔ s.Loaded jp := by
  unfold Loaded Held
  by_cases hj : jp = ip
  · subst hj
    rw [assign_icache_same]
  · rw [assign_icache_ne hj]

/-- After `iupdate` the disk has what memory has. -/
theorem assign_current (h : s.Inv) (hip : s.Caches ip i) {jp : InodePtr} (hjp : s.Loaded jp) :
    (jp = ip ∧ (s.assign ip major minor nlink).dinode ((s.assign ip major minor nlink).icache jp).inum =
      ((s.assign ip major minor nlink).icache jp).toDinode) ∨
    ((s.assign ip major minor nlink).icache jp = s.icache jp ∧
      (s.assign ip major minor nlink).dinode (s.icache jp).inum = s.dinode (s.icache jp).inum) := by
  by_cases hj : jp = ip
  · subst hj
    left
    rw [assign_icache_same, assign_dinode, if_pos rfl]
    exact ⟨rfl, rfl⟩
  · right
    rw [assign_icache_ne hj, assign_dinode, if_neg]
    · exact ⟨rfl, rfl⟩
    · exact fun heq => hj (h.cacheInj jp ip hjp.1 hip.1 heq)

theorem Agree.assign (h : s.Inv) (hip : s.Caches ip i) {P : Int16 → Prop} (hP : s.Agree P) :
    (s.assign ip major minor nlink).Agree P := by
  intro jp hjp htype
  rcases assign_current h hip (assign_loaded.mp hjp) with ⟨-, hd⟩ | ⟨hentry, hd⟩
  · exact hd
  · rw [hentry] at htype ⊢
    rw [hd]
    exact hP jp (assign_loaded.mp hjp) htype

theorem Tidy.assign (h : s.Tidy) (hip : s.Caches ip i) : (s.assign ip major minor nlink).Tidy := by
  have hview : ∀ j, (s.assign ip major minor nlink).view j = _ := assign_view h.toInv hip
  refine h.of (h.toInv.assign hip) rfl (fun j _ _ => .inl ?_) (h.agree.assign h.toInv hip) fun jp hjp => ?_
  · have hdata : ∀ b, ¬ s.sb.IsMeta b → (s.assign ip major minor nlink).disk b = s.disk b := by
      intro b hb
      refine flush_disk_data (assign_setInode_inv h.toInv).toWf (assign_setInode_caches hip) ?_
      exact hb
    by_cases hj : j = i
    · subst hj
      have hj := hview j
      rw [if_pos rfl] at hj
      exact .of_view (t := s.assign ip major minor nlink) h.toWf rfl hdata (by rw [hj]) (by rw [hj])
        (by rw [hj])
    · have hj' := hview j
      rw [if_neg hj] at hj'
      exact .of_view_eq hj' h.toWf rfl hdata
  · rcases assign_current h.toInv hip (assign_loaded.mp hjp) with ⟨-, hd⟩ | ⟨hentry, hd⟩
    · rw [hd]
    · rw [hentry, hd]
      exact h.nlink jp (assign_loaded.mp hjp)

theorem assign_ref (jp : InodePtr) : ((s.assign ip major minor nlink).icache jp).ref = (s.icache jp).ref := by
  by_cases hj : jp = ip
  · subst hj
    rw [assign_icache_same]
  · rw [assign_icache_ne hj]

theorem assign_inum (jp : InodePtr) :
    ((s.assign ip major minor nlink).icache jp).inum = (s.icache jp).inum := by
  by_cases hj : jp = ip
  · subst hj
    rw [assign_icache_same]
  · rw [assign_icache_ne hj]

theorem steadyBut_assign (o : Own) : SteadyBut ip o s (s.assign ip major minor nlink) := by
  refine fun jp _ => ⟨assign_inum jp, fun hv => ⟨?_, fun hj => by rw [assign_icache_ne hj]⟩⟩
  by_cases hj : jp = ip
  · subst hj
    rw [assign_icache_same]
    exact hv
  · rw [assign_icache_ne hj]
    exact hv

/-- A link count may drop to zero when somebody else has a reference. -/
theorem Step.assign (h : s.Tidy) (hip : s.Loaded ip)
    (hn : A → nlink = 0 → (s.icache ip).nlink = 0 ∨ (o ip : Int) < (s.icache ip).ref) :
    Step A s (s.assign ip major minor nlink) o o [s.sb.IBLOCK (s.icache ip).inum] := by
  have hcaches := hip.caches
  refine ⟨h.assign hcaches, rfl, fun jp => by rw [assign_ref], fun P hP => hP.assign h.toInv hcaches,
    fun ha hb j hal hj => ?_, fun _ _ => ⟨[s.sb.IBLOCK (s.icache ip).inum], ?_, List.Subset.refl _⟩⟩
  · have hkeep : ∀ jp, s.Caches jp j → (s.assign ip major minor nlink).Caches jp j := by
      intro jp hjp
      have hl : (s.assign ip major minor nlink).Loaded jp := assign_loaded.mpr ⟨hjp.1, hjp.2.1⟩
      exact ⟨hl.1, hl.2, (assign_inum jp).trans hjp.2.2⟩
    have hfrom : s.Allocated j → (s.view j).nlink = 0 →
        ∃ jp, (s.assign ip major minor nlink).Caches jp j ∧
          (o jp : Int) < ((s.assign ip major minor nlink).icache jp).ref := by
      intro hal' hn'
      obtain ⟨jp, hjp, hlt⟩ := hb j hal' hn'
      exact ⟨jp, hkeep jp hjp, (assign_ref jp).symm ▸ hlt⟩
    unfold Allocated at hal
    rw [assign_view h.toInv hcaches] at hal hj
    by_cases hji : j = (s.icache ip).inum
    · rw [if_pos hji] at hj
      rcases hn ha hj with hz | hlt
      · refine hfrom (hji ▸ h.toInv.allocated hcaches) ?_
        rw [hji, view_of_caches h.cacheInj hcaches]
        exact hz
      · exact ⟨ip, hkeep ip (hji ▸ hcaches), (assign_ref ip).symm ▸ hlt⟩
    · rw [if_neg hji] at hal hj
      exact hfrom hal hj
  · simp [Fs.assign]

end Assign

/-! ## Writes -/

namespace Wrote

variable {off n : Nat} {src : Bytes}

/-- The inode has a pointer for every block of the range. -/
def Slots (s : Fs) (i off n : Nat) : Prop :=
  ∀ bn, Touches off n bn → (s.view i).addrs (blockPath bn).1 ≠ 0

theorem loaded (hw : Wrote s t ip i off n src) {jp : InodePtr} : t.Loaded jp ↔ s.Loaded jp := by
  unfold Loaded Held
  rw [hw.keeps.field Inode.ref fun _ => rfl, hw.keeps.field Inode.valid fun _ => rfl]

theorem caches (hw : Wrote s t ip i off n src) {jp : InodePtr} {j : Nat} : t.Caches jp j ↔ s.Caches jp j := by
  unfold Caches
  rw [hw.keeps.field Inode.ref fun _ => rfl, hw.keeps.field Inode.valid fun _ => rfl, hw.keeps.inum]

theorem entry_type (hw : Wrote s t ip i off n src) (jp : InodePtr) :
    (t.icache jp).type = (s.icache jp).type :=
  hw.keeps.field (fun x => x.type) (fun _ => rfl) jp

theorem entry_nlink (hw : Wrote s t ip i off n src) (jp : InodePtr) :
    (t.icache jp).nlink = (s.icache jp).nlink :=
  hw.keeps.field (fun x => x.nlink) (fun _ => rfl) jp

/-- Entries of other inodes and their disk copies. -/
theorem entry_other (hw : Wrote s t ip i off n src) (h : s.Inv) (hip : s.Caches ip i) {jp : InodePtr}
    (hjp : s.Loaded jp) (hj : jp ≠ ip) :
    t.icache jp = s.icache jp ∧ t.dinode (s.icache jp).inum = s.dinode (s.icache jp).inum := by
  refine ⟨hw.icache jp hj, hw.dinode _ (h.cacheRange jp hjp.1) fun heq => hj ?_⟩
  exact h.cacheInj jp ip hjp.1 hip.1 (heq.trans hip.2.2.symm)

theorem agree (hw : Wrote s t ip i off n src) (h : s.Inv) (hip : s.Caches ip i) {P : Int16 → Prop}
    (hP : s.Agree P) (hcopy : P (s.icache ip).type → s.Grows i off n ∨ Slots s i off n) : t.Agree P := by
  intro jp hjp htype
  have hjp' := hw.loaded.mp hjp
  by_cases hj : jp = ip
  · subst hj
    rw [hw.entry_type] at htype
    have hinum : (t.icache jp).inum = i := (hw.caches.mpr hip).2.2
    by_cases hg : s.Grows i off n
    · rw [hinum]
      exact hw.grown hg
    · obtain ⟨hd, hsame⟩ := hw.stayed hg
      rw [hinum, hd, hsame ((hcopy htype).resolve_left hg), ← hip.2.2]
      exact hP jp hjp' htype
  · obtain ⟨hentry, hd⟩ := hw.entry_other h hip hjp' hj
    rw [hentry] at htype ⊢
    rw [hd]
    exact hP jp hjp' htype

theorem nlink (hw : Wrote s t ip i off n src) (h : s.Tidy) (hip : s.Caches ip i) {jp : InodePtr}
    (hjp : t.Loaded jp) : (t.dinode (t.icache jp).inum).nlink = (t.icache jp).nlink := by
  have hjp' := hw.loaded.mp hjp
  by_cases hj : jp = ip
  · subst hj
    have hinum : (t.icache jp).inum = i := (hw.caches.mpr hip).2.2
    by_cases hg : s.Grows i off n
    · rw [hinum, hw.grown hg]
    · rw [hinum, (hw.stayed hg).1, hw.entry_nlink, ← hip.2.2]
      exact h.nlink jp hjp'
  · obtain ⟨hentry, hd⟩ := hw.entry_other h.toInv hip hjp' hj
    rw [hentry, hd]
    exact h.nlink jp hjp'

/-- Writing to a directory takes some care. -/
theorem tidy (hw : Wrote s t ip i off n src) (h : s.Tidy) (hip : s.Caches ip i)
    (hdir : (s.icache ip).type = T_DIR → (s.Grows i off n ∨ Slots s i off n) ∧ t.Solid i ∧ t.Named i) :
    t.Tidy := by
  refine h.of hw.inv hw.keeps.sb (fun j hal htype => ?_)
    (hw.agree h.toInv hip h.agree fun htype => (hdir htype).1) fun jp hjp => hw.nlink h hip hjp
  by_cases hj : j = i
  · subst hj
    refine .inr (hdir ?_).2
    rw [hw.type, view_of_caches h.cacheInj hip] at htype
    exact htype
  · exact .inl (hw.other j (hw.keeps.sb ▸ hal.1) hj)

theorem ref (hw : Wrote s t ip i off n src) (jp : InodePtr) : (t.icache jp).ref = (s.icache jp).ref :=
  hw.keeps.field Inode.ref (fun _ => rfl) jp

theorem backed (hw : Wrote s t ip i off n src) (h : s.Inv) (hip : s.Caches ip i) (hb : s.Backed o) :
    t.Backed o := by
  intro j hal hn
  have hsb := hw.keeps.sb
  have hsame : (t.view j).type = (s.view j).type ∧ (t.view j).nlink = (s.view j).nlink := by
    by_cases hj : j = i
    · subst hj
      refine ⟨hw.type, ?_⟩
      rw [view_of_caches hw.inv.cacheInj (hw.caches.mpr hip), view_of_caches h.cacheInj hip, hw.entry_nlink]
    · rw [hw.view j (hsb ▸ hal.1) hj]
      exact ⟨rfl, rfl⟩
  obtain ⟨jp, hjp, hlt⟩ := hb j ⟨hsb ▸ hal.1, hsame.1 ▸ hal.2⟩ (hsame.2 ▸ hn)
  exact ⟨jp, hw.caches.mpr hjp, (hw.ref jp).symm ▸ hlt⟩

/-- Entries but the one that is written to stay as they are. -/
theorem steadyBut (hw : Wrote s t ip i off n src) (o : Own) : SteadyBut ip o s t := by
  refine fun jp _ => ⟨hw.keeps.inum jp, fun hv => ⟨?_, fun hj => by rw [hw.icache jp hj]⟩⟩
  rw [hw.keeps.field Inode.valid fun _ => rfl]
  exact hv

end Wrote

end Fs

end Xv6
