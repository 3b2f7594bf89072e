-- SUMMARY: The ownership invariant over runs of inode operations.
import Xv6.FileSystem.Image
import Xv6.FileSystem.InodeCache

/-! # The invariant of the inode layer

`Fs.Wf` says who owns which block, by the view of every inode: the cached copy if
there is one. When an entry leaves the cache the disk copy takes over, and for
that to be harmless the disk copy may lag behind only by pointers it does not
have yet. `Fs.Inv` adds this to `Fs.Wf`, and every operation of the inode layer
keeps it.
-/

namespace Xv6

open Prog

namespace Fs

/-- The disk copy of a cached inode is of the same type, and its block pointers are
    those of the cached copy as far as it has them. -/
structure Synced (s : Fs) (ip : InodePtr) (i : Nat) : Prop where
  typed : (s.icache ip).type ≠ 0
  type : (s.dinode i).type = (s.icache ip).type
  size : (s.dinode i).size.toNat ≤ MAXFILE * BSIZE
  addrs : ∀ k, (s.dinode i).addrs k = 0 ∨ (s.dinode i).addrs k = (s.icache ip).addrs k

structure Inv (s : Fs) : Prop extends Wf s where
  synced : ∀ ip i, s.Caches ip i → s.Synced ip i

theorem Synced.congr {s t : Fs} {ip : InodePtr} {i : Nat} (h : s.Synced ip i)
    (hdinode : t.dinode i = s.dinode i) (htype : (t.icache ip).type = (s.icache ip).type)
    (haddrs : ∀ k, (s.icache ip).addrs k ≠ 0 → (t.icache ip).addrs k = (s.icache ip).addrs k) :
    t.Synced ip i where
  typed := htype ▸ h.typed
  type := by rw [hdinode, htype, h.type]
  size := by rw [hdinode]; exact h.size
  addrs := fun k => by
    rw [hdinode]
    rcases h.addrs k with h0 | heq
    · exact .inl h0
    · by_cases hk : (s.icache ip).addrs k = 0
      · exact .inl (heq.trans hk)
      · exact .inr (heq.trans (haddrs k hk).symm)

namespace Inv

variable {s t : Fs} {ip : InodePtr} {i : Nat}

theorem lt (h : s.Inv) (hip : s.Caches ip i) : i < s.sb.ninodes :=
  hip.2.2 ▸ h.cacheRange ip hip.1

theorem allocated (h : s.Inv) (hip : s.Caches ip i) : s.Allocated i := by
  refine ⟨h.lt hip, ?_⟩
  rw [view_of_caches h.cacheInj hip]
  exact (h.synced ip i hip).typed

/-- Growing trees keeps the invariant. -/
theorem extend (h : s.Inv) (hwf : t.Wf) (g : Extend s t) : t.Inv := by
  refine ⟨hwf, fun ip i hip => ?_⟩
  have hip' : s.Caches ip i := by
    unfold Caches at *
    rw [← g.inode ip]
    exact hip
  have hroot : ∀ k, s.forest.node (i, k) [] = (s.icache ip).addrs k := fun k => by
    rw [Forest.node_nil, forest_root (h.allocated hip'), view_of_caches h.cacheInj hip']
  have hal : t.Allocated i := g.allocated h.cacheInj (h.allocated hip')
  have hroot' : ∀ k, t.forest.node (i, k) [] = (t.icache ip).addrs k := fun k => by
    rw [Forest.node_nil, forest_root hal, view_of_caches hwf.cacheInj hip]
  refine (h.synced ip i hip').congr (g.dinode i (h.lt hip')) ?_ fun k hk => ?_
  · rw [← g.inode ip]
  · rw [← hroot, ← hroot']
    exact g.node _ _ Shape.Path.nil (by rw [hroot]; exact hk)

/-- Assigning to fields other than the type and the block pointers. -/
theorem setInode (h : s.Inv) (x : Inode) (href : 0 < x.ref ↔ 0 < (s.icache ip).ref)
    (hvalid : x.valid = (s.icache ip).valid) (hinum : x.inum = (s.icache ip).inum)
    (htype : x.type = (s.icache ip).type) (haddrs : x.addrs = (s.icache ip).addrs)
    (hsize : ∀ i, s.Caches ip i → x.size.toNat ≤ MAXFILE * BSIZE) : (s.setInode ip x).Inv := by
  refine ⟨setInode_wf h.toWf x href hvalid hinum htype haddrs hsize, fun jp j hjp => ?_⟩
  by_cases hj : jp = ip
  · subst hj
    have hjp' : s.Caches jp j := by
      unfold Caches at *
      rw [setInode_icache_same, href, hvalid, hinum] at hjp
      exact hjp
    refine (h.synced jp j hjp').congr rfl ?_ fun k _ => ?_
    · rw [setInode_icache_same, htype]
    · rw [setInode_icache_same, haddrs]
  · have hjp' : s.Caches jp j := by
      unfold Caches at *
      rw [setInode_icache_ne _ _ hj] at hjp
      exact hjp
    refine (h.synced jp j hjp').congr rfl ?_ fun k _ => ?_ <;> rw [setInode_icache_ne _ _ hj]

/-- The same without a change of size. -/
theorem setInode_of_size (h : s.Inv) (x : Inode) (href : 0 < x.ref ↔ 0 < (s.icache ip).ref)
    (hvalid : x.valid = (s.icache ip).valid) (hinum : x.inum = (s.icache ip).inum)
    (htype : x.type = (s.icache ip).type) (haddrs : x.addrs = (s.icache ip).addrs)
    (hsize : x.size = (s.icache ip).size) : (s.setInode ip x).Inv := by
  refine h.setInode x href hvalid hinum htype haddrs fun i hip => ?_
  have := h.sizeLe i (h.allocated hip)
  rw [view_of_caches h.cacheInj hip] at this
  rw [hsize]
  exact this

/-- Copying an inode to disk brings its disk copy up to date. -/
theorem flush (hwf : s.Wf) (hip : s.Caches ip i) (htyped : (s.icache ip).type ≠ 0)
    (hothers : ∀ jp j, jp ≠ ip → s.Caches jp j → s.Synced jp j) : (s.flush ip).Inv := by
  refine ⟨flush_wf hwf hip, fun jp j hjp => ?_⟩
  have hjp' : s.Caches jp j := hjp
  have hal : s.Allocated i := by
    refine ⟨hip.2.2 ▸ hwf.cacheRange ip hip.1, ?_⟩
    rw [view_of_caches hwf.cacheInj hip]
    exact htyped
  by_cases hj : jp = ip
  · subst hj
    have hdinode : (s.flush jp).dinode j = (s.icache jp).toDinode := by
      rw [flush_dinode, if_pos hjp'.2.2.symm]
    have hsize := hwf.sizeLe i hal
    rw [view_of_caches hwf.cacheInj hip] at hsize
    exact ⟨htyped, by rw [hdinode, flush_icache], by rw [hdinode]; exact hsize,
      fun k => .inr (by rw [hdinode, flush_icache])⟩
  · have hne : j ≠ (s.icache ip).inum := by
      rintro rfl
      exact hj (hwf.cacheInj jp ip hjp'.1 hip.1 hjp'.2.2)
    refine (hothers jp j hj hjp').congr ?_ rfl fun _ _ => rfl
    rw [flush_dinode, if_neg hne]

/-- So does changing its size before. -/
theorem resize (hwf : s.Wf) (hip : s.Caches ip i) (htyped : (s.icache ip).type ≠ 0)
    (hothers : ∀ jp j, jp ≠ ip → s.Caches jp j → s.Synced jp j) {z : Nat} (hz : z ≤ MAXFILE * BSIZE) :
    (s.resize ip z).Inv := by
  refine flush (setSize_wf hwf hz) (setSize_caches hip) ?_ fun jp j hj hjp => ?_
  · rw [setInode_icache_same]
    exact htyped
  · have hjp' : s.Caches jp j := by
      unfold Caches at *
      rw [setInode_icache_ne _ _ hj] at hjp
      exact hjp
    refine (hothers jp j hj hjp').congr rfl ?_ fun k _ => ?_ <;> rw [setInode_icache_ne _ _ hj]

/-- What `writei` does after its loop. -/
theorem writeEnd (h : s.Inv) (hip : s.Caches ip i) {off n : Nat} (hle : off + n ≤ MAXFILE * BSIZE) :
    (writeEnd s ip off n).Inv := by
  unfold Xv6.writeEnd
  split
  · exact resize h.toWf hip (h.synced ip i hip).typed (fun jp j _ hjp => h.synced jp j hjp) hle
  · exact h

/-- `itrunc` leaves an empty file. -/
theorem truncated (h : s.Inv) (hip : s.Caches ip i) (ht : Truncated s t ip i NADDRS) :
    (t.resize ip 0).Inv := by
  refine resize (ht.wf h.toWf hip) ((ht.caches_iff ip i).mpr hip) ?_ (fun jp j hj hjp => ?_)
    (Nat.zero_le _)
  · rw [ht.icache_same]
    exact (h.synced ip i hip).typed
  · have hjp' := (ht.caches_iff jp j).mp hjp
    refine (h.synced jp j hjp').congr (ht.dinode j (h.lt hjp')) ?_ fun k _ => ?_ <;> rw [ht.icache_ne hj]

theorem setLog (h : s.Inv) (l : Log) : (s.setLog l).Inv :=
  ⟨⟨h.sbWf, h.sbDisk, h.metaUsed, h.owned, h.unshared, h.cacheInj, h.cacheRange, h.sizeLe⟩,
    fun ip i hip => ⟨(h.synced ip i hip).typed, (h.synced ip i hip).type, (h.synced ip i hip).size,
      (h.synced ip i hip).addrs⟩⟩

/-- Cache entries move, and nobody's view changes. -/
theorem of_view (h : s.Inv) {x : Inode} (hinj : (s.setInode ip x).CacheInj)
    (hrange : 0 < x.ref → x.inum < s.sb.ninodes)
    (hview : ∀ j, (s.setInode ip x).view j = s.view j)
    (hsynced : ∀ j, (s.setInode ip x).Caches ip j → (s.setInode ip x).Synced ip j) :
    (s.setInode ip x).Inv := by
  refine ⟨h.of_roots rfl rfl (fun _ _ hb => hb) (fun _ _ => rfl) (fun k => .inr ?_) hinj ?_ ?_, ?_⟩
  · refine root_congr rfl fun _ => ?_
    rw [hview]
    exact ⟨rfl, rfl⟩
  · intro jp hjp
    by_cases hj : jp = ip
    · subst hj
      rw [setInode_icache_same] at hjp ⊢
      exact hrange hjp
    · rw [setInode_icache_ne _ _ hj] at hjp ⊢
      exact h.cacheRange jp hjp
  · intro j hj
    unfold Allocated at hj
    rw [hview] at hj ⊢
    exact h.sizeLe j hj
  · intro jp j hjp
    by_cases hj : jp = ip
    · subst hj
      exact hsynced j hjp
    · have hjp' : s.Caches jp j := by
        unfold Caches at *
        rw [setInode_icache_ne _ _ hj] at hjp
        exact hjp
      refine (h.synced jp j hjp').congr rfl ?_ fun k _ => ?_ <;> rw [setInode_icache_ne _ _ hj]

/-- Taking another reference. -/
theorem addRef (h : s.Inv) (hip : s.Held ip) : (s.addRef ip).Inv := by
  refine h.setInode_of_size { s.icache ip with ref := (s.icache ip).ref + 1 } ⟨fun _ => hip, fun _ => ?_⟩
    rfl rfl rfl rfl rfl
  unfold Held at hip
  dsimp only
  omega

theorem addRef_view (h : s.Inv) (hip : s.Held ip) (j : Nat) : (s.addRef ip).view j = s.view j := by
  have href : 0 < (s.icache ip).ref + 1 ↔ 0 < (s.icache ip).ref := by
    unfold Held at hip
    omega
  have hview := (view_setInode h.cacheInj ip { s.icache ip with ref := (s.icache ip).ref + 1 } href rfl rfl).2 j
  unfold Fs.addRef
  rw [hview]
  split
  · next hc => rw [view_of_caches h.cacheInj hc]
  · rfl

section Recycle

variable {n : Nat}

private theorem recycle_inj (h : s.Inv) (hnew : ∀ jp, s.Held jp → (s.icache jp).inum ≠ n) :
    (s.recycle ip n).CacheInj := by
  intro jp kp hjp hkp heq
  unfold Fs.recycle at hjp hkp heq
  by_cases hj : jp = ip <;> by_cases hk : kp = ip
  · rw [hj, hk]
  · subst hj
    rw [setInode_icache_ne _ _ hk] at hkp heq
    rw [setInode_icache_same] at heq
    exact absurd heq.symm (hnew kp hkp)
  · subst hk
    rw [setInode_icache_ne _ _ hj] at hjp heq
    rw [setInode_icache_same] at heq
    exact absurd heq (hnew jp hjp)
  · rw [setInode_icache_ne _ _ hj] at hjp heq
    rw [setInode_icache_ne _ _ hk] at hkp heq
    exact h.cacheInj jp kp hjp hkp heq

theorem recycle_view (h : s.Inv) (href : (s.icache ip).ref = 0)
    (hnew : ∀ jp, s.Held jp → (s.icache jp).inum ≠ n) (j : Nat) : (s.recycle ip n).view j = s.view j := by
  have hno : ¬ s.Caches ip j := fun hc => by
    have := hc.1
    omega
  rw [Fs.recycle, view_setInode_eq h.cacheInj ip _ (h.recycle_inj hnew), if_neg (by simp), if_neg hno]

/-- `iget` of an inode that is not cached. -/
theorem recycle (h : s.Inv) (hn : n < s.sb.ninodes) (href : (s.icache ip).ref = 0)
    (hnew : ∀ jp, s.Held jp → (s.icache jp).inum ≠ n) : (s.recycle ip n).Inv := by
  refine h.of_view (h.recycle_inj hnew) (fun _ => hn) (h.recycle_view href hnew) fun j hj => ?_
  have := hj.2.1
  simp at this

end Recycle

/-- Reading an inode from disk changes nobody's view. -/
theorem lockInode_view (h : s.Inv) (hip : s.Held ip) (j : Nat) : (s.lockInode ip).view j = s.view j := by
  have hinj := cacheInj_setInode h.cacheInj ip ((s.icache ip).lock (s.dinode (s.icache ip).inum))
    Iff.rfl rfl
  unfold Fs.lockInode
  rw [view_setInode_eq h.cacheInj ip _ hinj]
  cases hvalid : (s.icache ip).valid with
  | true =>
    simp only [Inode.lock, hvalid, if_true, true_and]
    split
    · next hc => rw [view_of_caches h.cacheInj ⟨hc.1, hvalid, hc.2⟩]
    · next hc => rw [if_neg fun hc' => hc ⟨hc'.1, hc'.2.2⟩]
  | false =>
    -- the entry was the only one for its inode, and it was not valid
    have hno : ∀ jp, ¬ s.Caches jp (s.icache ip).inum := by
      intro jp hjp
      obtain rfl := h.cacheInj jp ip hjp.1 hip hjp.2.2
      rw [hjp.2.1] at hvalid
      cases hvalid
    simp only [Inode.lock, hvalid, Bool.false_eq_true, if_false, true_and]
    split
    · next hc => rw [← hc.2, view_of_not_cached hno]
    · rw [if_neg]
      intro hc
      rw [hc.2.1] at hvalid
      cases hvalid

theorem lockInode (h : s.Inv) (hip : s.Held ip) (htype : s.Typed ip) : (s.lockInode ip).Inv := by
  have hinj := cacheInj_setInode h.cacheInj ip ((s.icache ip).lock (s.dinode (s.icache ip).inum))
    Iff.rfl rfl
  refine h.of_view hinj (fun _ => h.cacheRange ip hip) (h.lockInode_view hip) fun j hj => ?_
  obtain rfl : (s.icache ip).inum = j := by
    have := hj.2.2
    rwa [setInode_icache_same] at this
  cases hvalid : (s.icache ip).valid with
  | true =>
    refine (h.synced ip _ ⟨hip, hvalid, rfl⟩).congr rfl ?_ fun k _ => ?_ <;>
      simp [Inode.lock, hvalid]
  | false =>
    have hview := h.lockInode_view hip (s.icache ip).inum
    have hentry : ((s.icache ip).lock (s.dinode (s.icache ip).inum)).toDinode =
        s.dinode (s.icache ip).inum := by
      simp [Inode.lock, hvalid]
    unfold Fs.lockInode at hview
    rw [view_of_caches hinj hj, setInode_icache_same, hentry] at hview
    have hsize := h.sizeLe (s.icache ip).inum ⟨h.cacheRange ip hip, by rw [← hview]; exact htype hvalid⟩
    rw [← hview] at hsize
    refine ⟨?_, ?_, hsize, fun k => .inr ?_⟩ <;> simp only [setInode_icache_same, Inode.lock, hvalid]
    · exact htype hvalid
    · rfl
    · rfl

theorem unlockInode (h : s.Inv) : (s.unlockInode ip).Inv :=
  h.setInode_of_size { s.icache ip with locked := false } Iff.rfl rfl rfl rfl rfl rfl

section Release

private theorem release_held {jp : InodePtr} (href : (s.icache ip).ref = 1) (hjp : (s.release ip).Held jp) :
    jp ≠ ip := by
  rintro rfl
  unfold Held Fs.release at hjp
  rw [setInode_icache_same, href] at hjp
  exact absurd hjp (lt_irrefl _)

private theorem release_inj (h : s.Inv) (href : (s.icache ip).ref = 1) : (s.release ip).CacheInj := by
  intro jp kp hjp hkp heq
  have hj := release_held href hjp
  have hk := release_held href hkp
  unfold Fs.release at hjp hkp heq
  rw [setInode_icache_ne _ _ hj] at hjp heq
  rw [setInode_icache_ne _ _ hk] at hkp heq
  exact h.cacheInj jp kp hjp hkp heq

/-- When the last reference to an inode goes, its disk copy takes over. -/
theorem release_view (h : s.Inv) (ip : InodePtr) (j : Nat) : (s.release ip).view j =
    if s.Caches ip j ∧ (s.icache ip).ref = 1 then s.dinode j else s.view j := by
  by_cases href : (s.icache ip).ref = 1
  · have hno : ¬ 0 < (s.icache ip).ref - 1 := by omega
    unfold Fs.release
    rw [view_setInode_eq h.cacheInj ip _ (h.release_inj href), if_neg fun hc => hno hc.1]
    simp only [href, and_true]
  · have href' : 0 < (s.icache ip).ref - 1 ↔ 0 < (s.icache ip).ref := by omega
    have hview := (view_setInode h.cacheInj ip { s.icache ip with ref := (s.icache ip).ref - 1 } href' rfl rfl).2 j
    have hno : ¬ (s.Caches ip j ∧ (s.icache ip).ref = 1) := fun hc => href hc.2
    unfold Fs.release
    rw [if_neg hno, hview]
    split
    · next hc => rw [view_of_caches h.cacheInj hc]
    · rfl

/-- The disk copy may lack pointers. -/
private theorem release_root (h : s.Inv) (ip : InodePtr) (k : Nat × Fin NADDRS) :
    (s.release ip).forest.root k = 0 ∨ (s.release ip).forest.root k = s.forest.root k := by
  have hview := h.release_view ip k.1
  by_cases hc : s.Caches ip k.1 ∧ (s.icache ip).ref = 1
  · have hs := h.synced ip k.1 hc.1
    rw [if_pos hc] at hview
    have hal' : (s.release ip).Allocated k.1 := by
      refine ⟨h.lt hc.1, ?_⟩
      rw [hview, hs.type]
      exact hs.typed
    obtain ⟨j, l⟩ := k
    rw [forest_root hal', forest_root (h.allocated hc.1), hview, view_of_caches h.cacheInj hc.1]
    exact hs.addrs l
  · rw [if_neg hc] at hview
    refine .inr (root_congr rfl fun _ => ?_)
    rw [hview]
    exact ⟨rfl, rfl⟩

theorem release_prune (h : s.Inv) (ip : InodePtr) :
    Forest.Prune blockShape s.forest (s.release ip).forest :=
  ⟨h.release_root ip, fun _ _ _ _ _ => rfl⟩

private theorem drop (h : s.Inv) (href : (s.icache ip).ref = 1) : (s.release ip).Inv := by
  have hview := h.release_view ip
  simp only [href, and_true] at hview
  refine ⟨h.of_roots rfl rfl (fun _ _ hb => hb) (fun _ _ => rfl) (h.release_root ip) (h.release_inj href) ?_ ?_, ?_⟩
  · intro jp hjp
    have hj := release_held href hjp
    unfold Fs.release at hjp ⊢
    rw [setInode_icache_ne _ _ hj] at hjp ⊢
    exact h.cacheRange jp hjp
  · intro j hj
    unfold Allocated at hj
    rw [hview] at hj ⊢
    split
    · next hc => exact (h.synced ip j hc).size
    · next hc =>
      rw [if_neg hc] at hj
      exact h.sizeLe j hj
  · intro jp j hjp
    have hj := release_held href hjp.1
    have hjp' : s.Caches jp j := by
      unfold Caches Fs.release at *
      rw [setInode_icache_ne _ _ hj] at hjp
      exact hjp
    unfold Fs.release
    refine (h.synced jp j hjp').congr rfl ?_ fun k _ => ?_ <;> rw [setInode_icache_ne _ _ hj]

/-- Dropping a reference. -/
theorem release (h : s.Inv) (ip : InodePtr) : (s.release ip).Inv := by
  by_cases href : (s.icache ip).ref = 1
  · exact h.drop href
  · refine h.setInode_of_size { s.icache ip with ref := (s.icache ip).ref - 1 } ?_ rfl rfl rfl rfl rfl
    dsimp only
    omega

end Release

/-- Nobody has an inode in memory that is free on disk. -/
theorem not_caches_of_free (h : s.Inv) (hfree : (s.dinode i).type = 0) (jp : InodePtr) :
    ¬ s.Caches jp i := by
  intro hjp
  have hs := h.synced jp i hjp
  exact hs.typed (hs.type ▸ hfree)

theorem claimInode_view (h : s.Inv) (hfree : (s.dinode i).type = 0) (type : Int16) (j : Nat) :
    (s.claimInode i type).view j = if j = i then { Dinode.blank with type := type } else s.view j := by
  have hno : ∀ jp, ¬ (s.claimInode i type).Caches jp i := h.not_caches_of_free hfree
  split
  · next hj =>
    subst hj
    rw [view_of_not_cached hno]
    exact (putDinode_dinode s j _ j).trans (if_pos rfl)
  · next hj =>
    exact view_congr ((putDinode_dinode s i _ j).trans (if_neg hj)) rfl

/-- `ialloc` claims an inode that is free on disk. -/
theorem claimInode (h : s.Inv) (hi : i < s.sb.ninodes) (hfree : (s.dinode i).type = 0) (type : Int16) :
    (s.claimInode i type).Inv := by
  have hno := h.not_caches_of_free hfree
  have hview := h.claimInode_view hfree type
  refine ⟨h.of_roots rfl (putDinode_disk_ne s _ (h.sbWf.SBLOCK_ne_IBLOCK i))
    (fun b _ hb => (putDinode_used h.sbWf hi _ b).trans hb) (fun b hb => putDinode_data h.sbWf hi _ hb)
    (fun k => ?_) h.cacheInj h.cacheRange fun j hj => ?_, fun jp j hjp => ?_⟩
  · by_cases hk : k.1 = i
    · left
      unfold forest
      dsimp only
      rw [hview, if_pos hk]
      split <;> rfl
    · refine .inr (root_congr rfl fun _ => ?_)
      rw [hview, if_neg hk]
      exact ⟨rfl, rfl⟩
  · unfold Allocated at hj
    rw [hview] at hj ⊢
    split
    · exact Nat.zero_le _
    · next hne =>
      rw [if_neg hne] at hj
      exact h.sizeLe j hj
  · have hne : j ≠ i := by
      rintro rfl
      exact hno jp hjp
    refine (h.synced jp j hjp).congr ?_ rfl fun _ _ => rfl
    exact (putDinode_dinode s i _ j).trans (if_neg hne)

section Reaped

private theorem reaped_held (r : Reaped s t ip i) {jp : InodePtr} (hjp : t.Held jp) : jp ≠ ip := by
  rintro rfl
  unfold Held at hjp
  rw [r.entry.1] at hjp
  exact absurd hjp (lt_irrefl _)

private theorem reaped_caches (r : Reaped s t ip i) {jp : InodePtr} {j : Nat} (hjp : t.Caches jp j) :
    s.Caches jp j := by
  have hj := r.icache jp (reaped_held r hjp.1)
  unfold Caches at *
  rw [hj] at hjp
  exact hjp

private theorem reaped_inj (h : s.Inv) (r : Reaped s t ip i) : t.CacheInj := by
  intro jp kp hjp hkp heq
  rw [r.icache jp (reaped_held r hjp), r.icache kp (reaped_held r hkp)] at heq
  have hjp' := r.icache jp (reaped_held r hjp) ▸ hjp
  have hkp' := r.icache kp (reaped_held r hkp) ▸ hkp
  exact h.cacheInj jp kp hjp' hkp' heq

/-- Nobody has the freed inode in memory any more. -/
private theorem reaped_gone (h : s.Inv) (hip : s.Caches ip i) (r : Reaped s t ip i) (jp : InodePtr) :
    ¬ t.Caches jp i := fun hjp =>
  reaped_held r hjp.1 (h.cacheInj jp ip (reaped_caches r hjp).1 hip.1
    ((reaped_caches r hjp).2.2.trans hip.2.2.symm))

theorem reaped_view (h : s.Inv) (hip : s.Caches ip i) (r : Reaped s t ip i) {j : Nat}
    (hj : j < s.sb.ninodes) (hne : j ≠ i) : t.view j = s.view j := by
  rcases view_cases h.cacheInj j with ⟨jp, hjp, hv⟩ | ⟨hno, hv⟩
  · have hjne : jp ≠ ip := by
      rintro rfl
      exact hne (hjp.2.2.symm.trans hip.2.2)
    have hjp' : t.Caches jp j := by
      unfold Caches at *
      rw [r.icache jp hjne]
      exact hjp
    rw [view_of_caches (h.reaped_inj r) hjp', r.icache jp hjne, hv]
  · rw [view_of_not_cached fun jp hjp => hno jp (reaped_caches r hjp), r.dinode j hj hne, hv]

theorem reaped_free (h : s.Inv) (hip : s.Caches ip i) (r : Reaped s t ip i) : ¬ t.Allocated i :=
  fun hal => hal.2 (by rw [view_of_not_cached (h.reaped_gone hip r), r.freed])

private theorem reaped_root (h : s.Inv) (hip : s.Caches ip i) (r : Reaped s t ip i) (k : Nat × Fin NADDRS) :
    t.forest.root k = if k.1 = i then 0 else s.forest.root k := by
  by_cases hk : k.1 = i
  · rw [if_pos hk]
    unfold forest
    exact if_neg (hk ▸ h.reaped_free hip r)
  · rw [if_neg hk]
    refine root_congr r.sb fun hj => ?_
    rw [h.reaped_view hip r hj hk]
    exact ⟨rfl, rfl⟩

theorem reaped_prune (h : s.Inv) (hip : s.Caches ip i) (r : Reaped s t ip i) :
    Forest.Prune blockShape s.forest t.forest := by
  refine ⟨fun k => ?_, fun k js j hp hne => ?_⟩
  · rw [h.reaped_root hip r]
    split
    · exact .inl rfl
    · exact .inr rfl
  · rw [forest_child, forest_child, r.data _ (h.owned hp.init hne).2.1]

/-- An unlinked inode is freed with its blocks. -/
theorem reaped (h : s.Inv) (hip : s.Caches ip i) (r : Reaped s t ip i) : t.Inv := by
  have hentry : ∀ jp, 0 < (t.icache jp).ref → jp ≠ ip := fun _ => reaped_held r
  have hcaches : ∀ jp j, t.Caches jp j → s.Caches jp j := fun _ _ => reaped_caches r
  have hinj : t.CacheInj := h.reaped_inj r
  have hgone : ∀ jp, ¬ t.Caches jp i := h.reaped_gone hip r
  have hview : ∀ j < s.sb.ninodes, j ≠ i → t.view j = s.view j := fun _ => h.reaped_view hip r
  have hfree : ¬ t.Allocated i := h.reaped_free hip r
  have hroot := h.reaped_root hip r
  have hprune := h.reaped_prune hip r
  refine ⟨h.of_subtree r.sb r.sbDisk (fun b hlt hused hb => (r.used b hlt).mpr ⟨hused, h.not_hangs ?_⟩)
    (fun _ _ hp hne => hprune.node hp hne) hinj (fun jp hjp => ?_) fun j hj => ?_, fun jp j hjp => ?_⟩
  · rcases hb with hmeta | ⟨k, js, hp, hne, heq⟩
    · exact .inl hmeta
    · refine .inr ⟨k, js, hp, fun hk => hne ?_, heq⟩
      exact Forest.node_of_root_eq_zero js (by rw [hroot, if_pos hk.1])
  · have hj := r.icache jp (hentry jp hjp)
    rw [hj] at hjp ⊢
    exact h.cacheRange jp hjp
  · have hne : j ≠ i := fun heq => hfree (heq ▸ hj)
    have hlt : j < s.sb.ninodes := r.sb ▸ hj.1
    unfold Allocated at hj
    rw [hview j hlt hne] at hj ⊢
    exact h.sizeLe j ⟨hlt, hj.2⟩
  · have hjne := hentry jp hjp.1
    have hne : j ≠ i := by
      rintro rfl
      exact hgone jp hjp
    have hjp' := hcaches jp j hjp
    refine (h.synced jp j hjp').congr (r.dinode j (h.lt hjp') hne) ?_ fun k _ => ?_ <;>
      rw [r.icache jp hjne]

end Reaped

end Inv

end Fs

theorem image_inv {d : Dinode} (haddrs : d.addrs = fun _ => 0) (htype : d.type ≠ 0)
    (hsize : d.size.toNat ≤ MAXFILE * BSIZE) : (image d).Inv := by
  have hdisk : (image d).dinode 1 = d := (image.dinode_eq d (by decide)).trans (if_pos rfl)
  refine ⟨image_wf haddrs hsize, fun ip i hip => ?_⟩
  obtain ⟨rfl, rfl⟩ := (image.caches_iff d ip i).mp hip
  exact ⟨htype, by rw [hdisk]; rfl, by rw [hdisk]; exact hsize, fun k => .inr (by rw [hdisk]; rfl)⟩

end Xv6
