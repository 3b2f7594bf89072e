-- SUMMARY: The rules of the inode cache: iget, ialloc, ilock and iput.
import Xv6.FileSystem.Truncate

/-! # The inode cache

One rule for every function that moves inodes in and out of the cache. A rule
gives the exact state the function returns in, except for `iput` of the last
reference to an unlinked inode, whose outcome is described by `Fs.Reaped`.
-/

namespace Xv6

open Prog

/-! ## Getting hold of an inode -/

section Get

variable {s : Fs} {E : Stop → Prop}

/-- The caller has a reference to the entry `ip`. -/
def Fs.Held (s : Fs) (ip : InodePtr) : Prop := 0 < (s.icache ip).ref

instance (s : Fs) (ip : InodePtr) : Decidable (s.Held ip) := inferInstanceAs (Decidable (_ < _))

/-- The state after `ip->ref++`. -/
def Fs.addRef (s : Fs) (ip : InodePtr) : Fs :=
  s.setInode ip { s.icache ip with ref := (s.icache ip).ref + 1 }

/-- The state after `ip->inum = inum; ip->ref = 1; ip->valid = 0`. -/
def Fs.recycle (s : Fs) (ip : InodePtr) (inum : Nat) : Fs :=
  s.setInode ip { s.icache ip with inum := inum, ref := 1, valid := false }

/-- `iget` finds the entry of a cached inode, or recycles an unused one; it panics if it
    finds neither. -/
theorem wp_iget_full {inum : Nat} {Q : InodePtr → Fs → Prop}
    (hfull : (∀ jp, (s.icache jp).ref ≠ 0) → (∀ jp, s.Held jp → (s.icache jp).inum ≠ inum) → E .igetNoInodes)
    (hhit : ∀ ip, s.Held ip → (s.icache ip).inum = inum → Q ip (s.addRef ip))
    (hmiss : ∀ ip, (s.icache ip).ref = 0 → (∀ jp, s.Held jp → (s.icache jp).inum ≠ inum) →
      Q ip (s.recycle ip inum)) :
    wp (iget inum) Q E s := by
  simp only [iget, wp_bind, wp_get]
  split
  · next ip hfind =>
    have hip := List.find?_some hfind
    simp only [Bool.and_eq_true, decide_eq_true_eq] at hip
    simp only [wp_bind, wp_imodify, wp_pure]
    exact hhit ip hip.1 hip.2
  · next hfind =>
    have hnew : ∀ jp, s.Held jp → (s.icache jp).inum ≠ inum := by
      intro jp hjp heq
      have := List.find?_eq_none.mp hfind jp (List.mem_finRange jp)
      unfold Fs.Held at hjp
      simp [hjp, heq] at this
    split
    · next ip hempty =>
      have hip := List.find?_some hempty
      simp only [decide_eq_true_eq] at hip
      simp only [wp_bind, wp_imodify, wp_pure]
      exact hmiss ip hip hnew
    · next hempty =>
      refine hfull (fun jp h0 => ?_) hnew
      have := List.find?_eq_none.mp hempty jp (List.mem_finRange jp)
      simp [h0] at this

theorem wp_iget {inum : Nat} {Q : InodePtr → Fs → Prop} (hnone : E .igetNoInodes)
    (hhit : ∀ ip, s.Held ip → (s.icache ip).inum = inum → Q ip (s.addRef ip))
    (hmiss : ∀ ip, (s.icache ip).ref = 0 → (∀ jp, s.Held jp → (s.icache jp).inum ≠ inum) →
      Q ip (s.recycle ip inum)) :
    wp (iget inum) Q E s := wp_iget_full (fun _ _ => hnone) hhit hmiss

/-- `memset(dip, 0, sizeof(*dip)); dip->type = type; log_write(bp)` for inode `i`. -/
def Fs.claimInode (s : Fs) (i : Nat) (type : Int16) : Fs :=
  s.putDinode i { Dinode.blank with type := type }

private theorem wp_iallocFrom {type : Int16} {Q : InodePtr → Fs → Prop} (hwf : s.sb.Wf)
    (hlog : MayLog E s) (hnone : E .iallocNoInodes)
    (hQ : ∀ i, i < s.sb.ninodes → (s.dinode i).type = 0 → wp (iget i) Q E (s.claimInode i type)) :
    ∀ is : List Nat, (∀ i ∈ is, i < s.sb.ninodes) → wp (iallocFrom type is) Q E s := by
  intro is
  induction is with
  | nil =>
    intro _
    exact hnone
  | cons i is ih =>
    intro his
    have hi := his i (by simp)
    simp only [iallocFrom, wp_bind, wp_get,
      wp_bread (hwf.isMeta_lt_FSSIZE (hwf.IBLOCK_isMeta hi))]
    split
    · next hfree =>
      simp only [wp_bind, wp_bmodify]
      exact wp_logWrite hlog.write fun _ => hQ i hi hfree
    · exact ih fun j hj => his j (by simp [hj])

/-- `ialloc` claims an inode that is free on disk and gets hold of it. -/
theorem wp_ialloc {type : Int16} {Q : InodePtr → Fs → Prop} (hwf : s.sb.Wf)
    (hlog : MayLog E s) (hnone : E .iallocNoInodes)
    (hQ : ∀ i, i < s.sb.ninodes → (s.dinode i).type = 0 → wp (iget i) Q E (s.claimInode i type)) :
    wp (ialloc type) Q E s := by
  simp only [ialloc, wp_bind, wp_get]
  refine wp_iallocFrom hwf hlog hnone hQ _ fun i hi => ?_
  rw [List.mem_range'_1] at hi
  omega

end Get

/-! ## Locking -/

section Lock

variable {s : Fs} {E : Stop → Prop} {ip : InodePtr} {Q : Unit → Fs → Prop}

/-- `ilock` of an inode that is in memory. -/
theorem wp_ilock_valid (href : 1 ≤ (s.icache ip).ref) (hvalid : (s.icache ip).valid = true)
    (hasleep : (s.icache ip).locked = true → E .asleep) (hQ : Q () (s.setInode ip { s.icache ip with locked := true })) :
    wp (ilock ip) Q E s := by
  have hge : ¬ (s.icache ip).ref < 1 := by omega
  simp only [ilock, wp_bind, wp_deref, if_neg hge]
  split
  · next hlocked => exact hasleep hlocked
  · simp only [hvalid, wp_bind, wp_imodify, wp_pure] at *
    exact hQ

/-- `ilock` of an inode that is not in memory reads it from disk. -/
theorem wp_ilock_load (hwf : s.sb.Wf) (href : 1 ≤ (s.icache ip).ref)
    (hvalid : (s.icache ip).valid = false) (hinum : (s.icache ip).inum < s.sb.ninodes)
    (hasleep : (s.icache ip).locked = true → E .asleep)
    (hnotype : (s.dinode (s.icache ip).inum).type = 0 → E .ilockNoType)
    (hQ : (s.dinode (s.icache ip).inum).type ≠ 0 → Q () (s.setInode ip
      { s.icache ip with toDinode := s.dinode (s.icache ip).inum, locked := true, valid := true })) :
    wp (ilock ip) Q E s := by
  have hge : ¬ (s.icache ip).ref < 1 := by omega
  have hblk := hwf.isMeta_lt_FSSIZE (hwf.IBLOCK_isMeta hinum)
  simp only [ilock, wp_bind, wp_deref, if_neg hge]
  split
  · next hlocked => exact hasleep hlocked
  · have hload : ¬ (s.icache ip).valid = true := by simp [hvalid]
    simp only [wp_bind, wp_imodify, if_neg hload, wp_get, Fs.setInode_sb, wp_bread hblk,
      Fs.setInode_icache_same]
    rw [wp_ite]
    refine ⟨hnotype, fun htype => ?_⟩
    rw [wp_pure, Fs.setInode_setInode]
    exact hQ htype

/-- What `ilock` makes of an entry, given the disk copy of its inode. -/
def Inode.lock (x : Inode) (d : Dinode) : Inode :=
  { x with toDinode := if x.valid then x.toDinode else d, valid := true, locked := true }

/-- The state after `ilock(ip)`. -/
def Fs.lockInode (s : Fs) (ip : InodePtr) : Fs :=
  s.setInode ip ((s.icache ip).lock (s.dinode (s.icache ip).inum))

/-- The state after `iunlock(ip)`. -/
def Fs.unlockInode (s : Fs) (ip : InodePtr) : Fs :=
  s.setInode ip { s.icache ip with locked := false }

/-- The caller has a reference to the entry `ip`, and has locked it before. -/
def Fs.Loaded (s : Fs) (ip : InodePtr) : Prop := s.Held ip ∧ (s.icache ip).valid = true

instance (s : Fs) (ip : InodePtr) : Decidable (s.Loaded ip) := inferInstanceAs (Decidable (_ ∧ _))

theorem Fs.Loaded.caches (h : s.Loaded ip) : s.Caches ip (s.icache ip).inum := ⟨h.1, h.2, rfl⟩

/-- The inode in the entry `ip` has a type, in memory or on disk. -/
def Fs.Typed (s : Fs) (ip : InodePtr) : Prop :=
  (s.icache ip).valid = false → (s.dinode (s.icache ip).inum).type ≠ 0

theorem wp_ilock (hwf : s.sb.Wf) (hip : s.Held ip) (hinum : (s.icache ip).inum < s.sb.ninodes)
    (hasleep : (s.icache ip).locked = true → E .asleep) (hnotype : ¬ s.Typed ip → E .ilockNoType)
    (hQ : s.Typed ip → Q () (s.lockInode ip)) :
    wp (ilock ip) Q E s := by
  unfold Fs.lockInode Inode.lock at hQ
  cases hvalid : (s.icache ip).valid with
  | true =>
    rw [hvalid] at hQ
    refine wp_ilock_valid hip hvalid hasleep ?_
    rw [show ({ s.icache ip with locked := true } : Inode) =
      { s.icache ip with valid := true, locked := true } by rw [← hvalid]]
    exact hQ fun h => by rw [hvalid] at h; cases h
  | false =>
    rw [hvalid] at hQ
    exact wp_ilock_load hwf hip hvalid hinum hasleep (fun h0 => hnotype fun h => h hvalid h0)
      fun htype => hQ fun _ => htype

theorem wp_iunlock (hunlocked : (s.icache ip).locked = false ∨ (s.icache ip).ref < 1 → E .iunlock)
    (hQ : Q () (s.unlockInode ip)) : wp (iunlock ip) Q E s := by
  simp only [iunlock, wp_bind, wp_deref]
  split
  · next h => exact hunlocked h
  · exact hQ

end Lock

/-! ## Dropping a reference -/

/-- `t` is `s` after the last reference to the unlinked inode `i` in `ip` was
    dropped: its blocks are free, its disk copy has no type, its entry is unused. -/
structure Fs.Reaped (s t : Fs) (ip : InodePtr) (i : Nat) : Prop where
  sb : t.sb = s.sb
  devsw : t.devsw = s.devsw
  outstanding : t.log.outstanding = s.log.outstanding
  entry : (t.icache ip).ref = 0 ∧ (t.icache ip).valid = false ∧ (t.icache ip).locked = false
  icache : ∀ jp, jp ≠ ip → t.icache jp = s.icache jp
  data : ∀ b, ¬ s.sb.IsMeta b → t.disk b = s.disk b
  sbDisk : t.disk SBLOCK = s.disk SBLOCK
  freed : (t.dinode i).type = 0
  dinode : ∀ j < s.sb.ninodes, j ≠ i → t.dinode j = s.dinode j
  used : ∀ b < s.sb.size, t.used b = true ↔ s.used b = true ∧ ¬ s.Hangs i NADDRS b
  trace : ∃ ds, t.log.trace = ds ++ s.log.trace ∧
    ∀ x, x ∈ ds ↔ x = s.sb.IBLOCK i ∨ ∃ b, s.Hangs i NADDRS b ∧ x = s.sb.BBLOCK b

/-- The state after `ip->ref--`. -/
def Fs.release (s : Fs) (ip : InodePtr) : Fs :=
  s.setInode ip { s.icache ip with ref := (s.icache ip).ref - 1 }

section Put

variable {s : Fs} {E : Stop → Prop} {ip : InodePtr} {i : Nat} {Q : Unit → Fs → Prop}

/-- `iput` that only drops a reference. -/
theorem wp_iput_drop (hmore : ¬ ((s.icache ip).valid = true ∧ (s.icache ip).nlink = 0 ∧
      (s.icache ip).ref = 1))
    (hasleep : (s.icache ip).locked = true → E .asleep)
    (hQ : (s.icache ip).locked = false → Q () (s.release ip)) :
    wp (iput ip) Q E s := by
  simp only [iput, wp_bind, wp_deref]
  split
  · next hlocked => exact hasleep hlocked
  · next hunlocked =>
    have hunlocked' : (s.icache ip).locked = false := by simpa using hunlocked
    have hres := hQ hunlocked'
    simp only [Fs.release, hunlocked'] at hres
    simp only [wp_bind, wp_imodify, Fs.setInode_icache_same, Fs.setInode_setInode]
    exact hres

/-- Taking the lock changes no tree. -/
theorem Fs.hangs_lock (hwf : s.Wf) (j m b : Nat) :
    (s.setInode ip { s.icache ip with locked := true }).Hangs j m b ↔ s.Hangs j m b := by
  have hnode : ∀ {k : Nat × Fin NADDRS} {js : List Nat}, blockShape.Path k js →
      (s.setInode ip { s.icache ip with locked := true }).forest.node k js = s.forest.node k js :=
    fun hp => Fs.setInode_node hwf { s.icache ip with locked := true } Iff.rfl rfl rfl rfl rfl hp
  constructor
  · rintro ⟨k, hk, js, hF, hp, hne, rfl⟩
    rw [hnode hp] at hne ⊢
    exact ⟨k, hk, js, hF, hp, hne, rfl⟩
  · rintro ⟨k, hk, js, hF, hp, hne, rfl⟩
    exact ⟨k, hk, js, hF, hp, by rw [hnode hp]; exact hne, by rw [hnode hp]⟩

/-- `ip->type = 0; iupdate(ip); ip->valid = 0` and the end of `iput`. -/
def Fs.retire (s : Fs) (ip : InodePtr) : Fs :=
  ((s.setInode ip { s.icache ip with type := 0 }).flush ip).setInode ip
    { s.icache ip with type := 0, valid := false, locked := false, ref := (s.icache ip).ref - 1 }

/-- What `itrunc` and the rest of `iput` do together. -/
theorem Fs.Truncated.reaped {t : Fs} (hwf : s.Wf) (hip : s.Caches ip i) (href : (s.icache ip).ref = 1)
    (h : Fs.Truncated (s.setInode ip { s.icache ip with locked := true }) t ip i NADDRS) :
    Fs.Reaped s ((t.resize ip 0).retire ip) ip i := by
  have hi : i < s.sb.ninodes := hip.2.2 ▸ hwf.cacheRange ip hip.1
  have hentry : t.icache ip = ({ s.icache ip with locked := true } : Inode).cut NADDRS := by
    rw [h.icache_same, Fs.setInode_icache_same]
  have hinum : (t.icache ip).inum = i := by
    rw [hentry]
    exact hip.2.2
  have hsb : t.sb = s.sb := h.sb
  -- only the inode block is written after `itrunc` has freed the blocks
  have hdisk : ∀ b, b ≠ s.sb.IBLOCK i → ((t.resize ip 0).retire ip).disk b = t.disk b := by
    intro b hb
    simp only [Fs.retire, Fs.resize, Fs.setInode_disk]
    rw [Fs.flush_disk_ne, Fs.setInode_disk, Fs.flush_disk_ne, Fs.setInode_disk]
    · simpa [hinum, hsb] using hb
    · simpa [hinum, hsb] using hb
  have hdinode : ∀ j, ((t.resize ip 0).retire ip).dinode j =
      if j = i then { t.icache ip with size := 0, type := 0 }.toDinode else t.dinode j := by
    intro j
    have hset : ∀ (u : Fs) (x : Inode), (u.setInode ip x).dinode j = u.dinode j := fun _ _ => rfl
    simp only [Fs.retire, Fs.resize, hset, Fs.flush_dinode, Fs.setInode_icache_same,
      Fs.flush_icache, hinum]
    split <;> rfl
  refine
    { sb := hsb, devsw := h.devsw, outstanding := h.outstanding, entry := ?_, icache := fun jp hjp => ?_,
      data := fun b hb => ?_, sbDisk := ?_, freed := ?_, dinode := fun j hj hne => ?_,
      used := fun b hb => ?_, trace := ?_ }
  · simp [Fs.retire, Fs.resize, hentry, Inode.cut, href]
  · simp only [Fs.retire, Fs.resize, Fs.setInode_icache_ne _ _ hjp, Fs.flush_icache]
    rw [h.icache_ne hjp, Fs.setInode_icache_ne _ _ hjp]
  · rw [hdisk b fun heq => hb (heq ▸ hwf.sbWf.IBLOCK_isMeta hi)]
    exact h.data b hb
  · rw [hdisk _ (hwf.sbWf.SBLOCK_ne_IBLOCK i)]
    exact h.sbDisk
  · rw [hdinode, if_pos rfl]
  · rw [hdinode, if_neg hne]
    exact h.dinode j hj
  · have hused : ((t.resize ip 0).retire ip).used b = t.used b := by
      unfold Fs.used
      have hsb' : ((t.resize ip 0).retire ip).sb = s.sb := hsb
      rw [hsb', hsb, hdisk _ (hwf.sbWf.IBLOCK_ne_BBLOCK hi).symm]
    rw [hused, h.used b hb, Fs.hangs_lock hwf]
    rfl
  · obtain ⟨ds, htrace, hds⟩ := h.trace
    refine ⟨s.sb.IBLOCK i :: s.sb.IBLOCK i :: ds, ?_, fun x => ?_⟩
    · simp only [Fs.retire, Fs.resize, Fs.setInode_log, Fs.flush_trace, Fs.setInode_icache_same,
        Fs.flush_icache, Fs.flush_sb, Fs.setInode_sb, hinum, hsb, htrace]
      rfl
    · simp only [List.mem_cons, hds, Fs.hangs_lock hwf, Fs.setInode_sb, or_self_left]

/-- `iput` of the last reference to an unlinked inode frees it. -/
theorem wp_iput_last (hwf : s.Wf) (hip : s.Caches ip i) (hal : s.Allocated i)
    (hlast : (s.icache ip).valid = true ∧ (s.icache ip).nlink = 0 ∧ (s.icache ip).ref = 1)
    (hlog : MayLog E s) (hasleep : (s.icache ip).locked = true → E .asleep)
    (hQ : ∀ t, Fs.Reaped s t ip i → Q () t) : wp (iput ip) Q E s := by
  have hi : i < s.sb.ninodes := hal.1
  have hinum : (s.icache ip).inum = i := hip.2.2
  simp only [iput, wp_bind, wp_deref]
  split
  · next hlocked => exact hasleep hlocked
  simp only [wp_bind, wp_imodify]
  obtain ⟨s₀, hs₀⟩ : ∃ s₀, s₀ = s.setInode ip { s.icache ip with locked := true } := ⟨_, rfl⟩
  have hentry₀ : s₀.icache ip = { s.icache ip with locked := true } := by simp [hs₀]
  have hwf₀ : s₀.Wf := hs₀ ▸ Fs.setInode_wf hwf { s.icache ip with locked := true } Iff.rfl rfl rfl rfl
    rfl fun _ _ => by
      have := hwf.sizeLe i hal
      rw [Fs.view_of_caches hwf.cacheInj hip] at this
      exact this
  have hip₀ : s₀.Caches ip i := by
    unfold Fs.Caches
    rw [hentry₀]
    exact hip
  have hal₀ : s₀.Allocated i := by
    refine ⟨hs₀ ▸ hi, ?_⟩
    have := hal.2
    rw [Fs.view_of_caches hwf.cacheInj hip] at this
    rw [Fs.view_of_caches hwf₀.cacheInj hip₀, hentry₀]
    exact this
  rw [← hs₀]
  refine wp_itrunc hwf₀ hip₀ hal₀ (hlog.congr (hs₀ ▸ rfl)).writeAll rfl (fun _ _ => trivial) fun t h => ?_
  have hwft := h.wf hwf₀ hip₀
  have hipt := (h.caches_iff ip i).mpr hip₀
  refine wp_iupdate hwft.sbWf ?_ (MayLog.write ((hlog.congr (h.outstanding.trans (hs₀ ▸ rfl))).congr rfl)) ?_
  · have hinumt : ((t.resize ip 0).icache ip).inum = (t.icache ip).inum := by simp [Fs.resize]
    rw [Fs.setInode_icache_same]
    exact hinumt.symm ▸ hwft.cacheRange ip hipt.1
  · subst hs₀
    have hres := hQ _ (h.reaped hwf hip hlast.2.2)
    simpa [Fs.retire] using hres

end Put

end Xv6
