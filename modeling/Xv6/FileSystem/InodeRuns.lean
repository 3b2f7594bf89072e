-- SUMMARY: Block ownership along every run of inode operations.
import Xv6.FileSystem.FileRefinement
import Xv6.FileSystem.Invariant

/-! # Runs of the inode layer

A run starts from a disk whose trees are well formed and an empty inode cache, and
takes any operations of the inode layer, in any order, on pointers their callers
hold. The ownership invariant holds in every state it reaches, so no operation
ever frees a block that is free.
-/

namespace Xv6

open Prog

/-! ## Operations -/

/-- What `file.c`, `sysfile.c` and `exec.c` do to the inode layer. `assign` is an
    assignment to the fields that `create`, `sys_link` and `sys_unlink` set. -/
inductive InodeOp where
  | beginOp
  | endOp
  | iget (inum : Nat)
  | ialloc (type : Int16)
  | idup (ip : InodePtr)
  | ilock (ip : InodePtr)
  | iunlock (ip : InodePtr)
  | iput (ip : InodePtr)
  | assign (ip : InodePtr) (major minor nlink : Int16)
  | iupdate (ip : InodePtr)
  | itrunc (ip : InodePtr)
  | bmap (ip : InodePtr) (bn : Nat)
  | readi (ip : InodePtr) (off n : UInt32)
  | writei (ip : InodePtr) (src : Bytes) (off n : UInt32)

namespace InodeOp

/-- Run the operation and forget its result. -/
def exec : InodeOp → FS Unit
  | .beginOp                    => Xv6.beginOp
  | .endOp                      => Xv6.endOp
  | .iget inum                  => do let _ ← Xv6.iget inum
  | .ialloc type                => do let _ ← Xv6.ialloc type
  | .idup ip                    => do let _ ← Xv6.idup ip
  | .ilock ip                   => Xv6.ilock ip
  | .iunlock ip                 => Xv6.iunlock ip
  | .iput ip                    => Xv6.iput ip
  | .assign ip major minor nlink =>
    imodify ip fun x => { x with major := major, minor := minor, nlink := nlink }
  | .iupdate ip                 => Xv6.iupdate ip
  | .itrunc ip                  => Xv6.itrunc ip
  | .bmap ip bn                 => do let _ ← Xv6.bmap ip bn
  | .readi ip off n             => do let _ ← Xv6.readi ip off n
  | .writei ip src off n        => do let _ ← Xv6.writei ip src off n

end InodeOp

namespace Fs

/-- What the callers of the inode layer see to. -/
def Allows (s : Fs) : InodeOp → Prop
  | .beginOp | .endOp | .ialloc _ => True
  | .iget inum => inum < s.sb.ninodes
  | .idup ip | .ilock ip | .iunlock ip | .iput ip | .assign ip _ _ _ => s.Held ip
  | .iupdate ip | .itrunc ip | .bmap ip _ | .readi ip _ _ | .writei ip _ _ _ => s.Loaded ip

instance (s : Fs) (op : InodeOp) : Decidable (s.Allows op) := by
  unfold Allows
  split <;> infer_instance

/-- States that operations lead to. -/
inductive Reaches (s : Fs) : Fs → Prop where
  | refl : Reaches s s
  | step {t u : Fs} (h : Reaches s t) (op : InodeOp) (hallow : t.Allows op)
      (hexec : op.exec t = .ok ((), u)) : Reaches s u

/-- A disk with well formed trees, and an empty inode cache. -/
structure Start (s : Fs) : Prop extends Wf s where
  empty : ∀ ip, (s.icache ip).ref = 0

theorem Start.inv {s : Fs} (h : s.Start) : s.Inv := by
  refine ⟨h.toWf, fun ip i hip => ?_⟩
  have hpos := hip.1
  rw [h.empty ip] at hpos
  exact absurd hpos (lt_irrefl _)

end Fs

/-! ## One operation -/

/-- Every way to stop but one. -/
def NotFreeingFree (e : Stop) : Prop := e ≠ .freeingFreeBlock

instance (e : Stop) : Decidable (NotFreeingFree e) := inferInstanceAs (Decidable (e ≠ _))

theorem mayLog_notFreeingFree (s : Fs) : MayLog NotFreeingFree s := ⟨by decide, .inr (by decide)⟩

section Steps

variable {s : Fs} {ip : InodePtr}

theorem wp_iget_inv (h : s.Inv) {inum : Nat} (hinum : inum < s.sb.ninodes) :
    wp (iget inum) (fun _ t => t.Inv) NotFreeingFree s :=
  wp_iget (by decide) (fun _ href _ => h.addRef href) fun _ href hnew => h.recycle hinum href hnew

theorem wp_iput_inv (h : s.Inv) (hip : s.Held ip) :
    wp (iput ip) (fun _ t => t.Inv) NotFreeingFree s := by
  by_cases hlast : (s.icache ip).valid = true ∧ (s.icache ip).nlink = 0 ∧ (s.icache ip).ref = 1
  · have hc : s.Caches ip (s.icache ip).inum := ⟨hip, hlast.1, rfl⟩
    exact wp_iput_last h.toWf hc (h.allocated hc) hlast (mayLog_notFreeingFree s) (fun _ => by decide) fun t hr => h.reaped hc hr
  · exact wp_iput_drop hlast (fun _ => by decide) fun _ => h.release ip

theorem wp_iupdate_inv (h : s.Inv) (hip : s.Loaded ip) :
    wp (iupdate ip) (fun _ t => t.Inv) NotFreeingFree s := by
  refine wp_iupdate h.sbWf (h.cacheRange ip hip.1) (mayLog_notFreeingFree s).write ?_
  exact .flush h.toWf hip.caches (h.synced ip _ hip.caches).typed fun jp j _ hjp => h.synced jp j hjp

theorem wp_bmap_inv (h : s.Inv) (hip : s.Loaded ip) (bn : Nat) :
    wp (bmap ip bn) (fun a t => t.Inv ∧ Fs.Grow s t ∧ t.blockAddr (s.icache ip).inum bn = a ∧ a ≠ 0)
      NotFreeingFree s := by
  by_cases hbn : bn < MAXFILE
  · refine (wp_bmap (by decide) hbn (bmapStep_true ip _ bn) h.toWf hip.caches (h.allocated hip.caches)
      (mayLog_notFreeingFree s) trivial).post ?_
    rintro a t ⟨-, hwf, g, hne, haddr, -⟩
    exact ⟨h.extend hwf g.toExtend, g, haddr, hne⟩
  · rw [bmap_outOfRange hbn, wp_throw]
    decide

theorem wp_readi_inv (h : s.Inv) (hip : s.Loaded ip) (off n : UInt32) :
    wp (readi ip off n) (fun _ t => t.Inv) NotFreeingFree s := by
  by_cases hdev : (s.icache ip).type = T_DEV
  · exact wp_readi_dev hdev fun _ => h
  · exact wp_readi (I := fun _ => True) (by decide) h.toWf hip.caches (h.allocated hip.caches) hdev
      (mayLog_notFreeingFree s) trivial (fun bn _ _ => bmapStep_true ip _ bn) (fun _ => h)
      fun t _ _ _ hwf g => h.extend hwf g.toExtend

theorem wp_writei_inv (h : s.Inv) (hip : s.Loaded ip) (src : Bytes) (off n : UInt32) :
    wp (writei ip src off n) (fun _ t => t.Inv) NotFreeingFree s := by
  by_cases hdev : (s.icache ip).type = T_DEV
  · exact wp_writei_dev hdev fun _ => h
  · exact wp_writei (I := fun _ => True) (by decide) h.toWf hip.caches (h.allocated hip.caches) hdev
      (mayLog_notFreeingFree s) trivial (fun _ bn _ _ => bmapStep_true ip _ bn) (fun _ _ _ _ _ _ _ _ _ => trivial)
      (fun _ => h) fun t hle _ hwf hw => (h.extend hwf hw.toExtend).writeEnd (hw.caches hip.caches) hle

/-- Every operation keeps the invariant, and frees no block that is free. -/
theorem InodeOp.wp_exec (h : s.Inv) {op : InodeOp} (hallow : s.Allows op) :
    wp op.exec (fun _ t => t.Inv) NotFreeingFree s := by
  cases op with
  | beginOp => exact wp_beginOp (by decide) (h.setLog _)
  | endOp => exact wp_endOp.mpr (h.setLog _)
  | iget inum =>
    simp only [exec, wp_bind, wp_pure]
    exact wp_iget_inv h hallow
  | ialloc type =>
    simp only [exec, wp_bind, wp_pure]
    exact wp_ialloc h.sbWf (mayLog_notFreeingFree s) (by decide) fun i hi hfree =>
      wp_iget_inv (h.claimInode hi hfree type) hi
  | idup ip =>
    simp only [exec, Xv6.idup, wp_bind, wp_imodify, wp_pure]
    exact h.addRef hallow
  | ilock ip =>
    exact wp_ilock h.sbWf hallow (h.cacheRange ip hallow) (fun _ => by decide) (fun _ => by decide)
      fun htype => h.lockInode hallow htype
  | iunlock ip =>
    exact wp_iunlock (fun _ => by decide) h.unlockInode
  | iput ip => exact wp_iput_inv h hallow
  | assign ip major minor nlink =>
    simp only [exec, wp_imodify]
    exact h.setInode_of_size { s.icache ip with major := major, minor := minor, nlink := nlink }
      Iff.rfl rfl rfl rfl rfl rfl
  | iupdate ip => exact wp_iupdate_inv h hallow
  | itrunc ip =>
    have hc := Fs.Loaded.caches hallow
    exact wp_itrunc h.toWf hc (h.allocated hc) (mayLog_notFreeingFree s).writeAll rfl (fun _ _ => trivial) fun t ht =>
      h.truncated hc ht
  | bmap ip bn =>
    simp only [exec, wp_bind, wp_pure]
    exact (wp_bmap_inv h hallow bn).post fun _ _ hpost => hpost.1
  | readi ip off n =>
    simp only [exec, wp_bind, wp_pure]
    exact wp_readi_inv h hallow off n
  | writei ip src off n =>
    simp only [exec, wp_bind, wp_pure]
    exact wp_writei_inv h hallow src off n

end Steps

/-! ## Runs -/

section Runs

variable {s t u : Fs} {ip : InodePtr}

theorem Fs.Reaches.inv (h : Fs.Reaches s t) (hs : s.Inv) : t.Inv := by
  induction h with
  | refl => exact hs
  | step _ op hallow hexec ih => exact (InodeOp.wp_exec ih hallow).of_run hexec

/-- `bmap` calls one after the other. -/
def bmaps : List (InodePtr × Nat) → FS Unit
  | [] => pure ()
  | (ip, bn) :: calls => do
    let _ ← bmap ip bn
    bmaps calls

theorem Fs.Extend.loaded (g : Fs.Extend s t) (h : s.Loaded ip) : t.Loaded ip := by
  unfold Fs.Loaded Fs.Held at *
  rw [← g.inode ip] at h
  exact h

theorem Fs.Extend.inum (g : Fs.Extend s t) : (t.icache ip).inum = (s.icache ip).inum := by rw [← g.inode ip]

theorem wp_bmaps_inv (calls : List (InodePtr × Nat)) {s : Fs} (h : s.Inv)
    (hcalls : ∀ c ∈ calls, s.Loaded c.1) :
    wp (bmaps calls) (fun _ t => t.Inv ∧ Fs.Grow s t) NotFreeingFree s := by
  induction calls generalizing s with
  | nil => exact ⟨h, .refl s⟩
  | cons c calls ih =>
    simp only [bmaps, wp_bind]
    refine (wp_bmap_inv h (hcalls c (by simp)) c.2).post ?_
    rintro a t ⟨ht, g, -⟩
    refine (ih ht fun c' hc' => g.loaded (hcalls c' (by simp [hc']))).post ?_
    rintro _ u ⟨hu, g'⟩
    exact ⟨hu, g.trans g'⟩

/-- A block that `bmap` has returned is still there after more calls of `bmap`. -/
theorem bmap_kept (h : s.Inv) (hip : s.Loaded ip) {bn : Nat} {a : UInt32} (hrun : bmap ip bn s = .ok (a, t))
    {calls : List (InodePtr × Nat)} (hcalls : ∀ c ∈ calls, t.Loaded c.1) (hcalls_run : bmaps calls t = .ok ((), u)) :
    u.Inv ∧ Fs.Grow s u ∧ u.blockAddr (s.icache ip).inum bn = a ∧ a ≠ 0 := by
  obtain ⟨ht, g, haddr, hne⟩ := (wp_bmap_inv h hip bn).of_run hrun
  obtain ⟨hu, g'⟩ := (wp_bmaps_inv calls ht hcalls).of_run hcalls_run
  refine ⟨hu, g.trans g', ?_, hne⟩
  rw [g'.blockAddr (by rw [haddr]; exact hne), haddr]

/-- Calls of `bmap` do not move a block. -/
theorem bmap_stable (h : s.Inv) (hip : s.Loaded ip) {bn : Nat} {a : UInt32} (hrun : bmap ip bn s = .ok (a, t))
    {calls : List (InodePtr × Nat)} (hcalls : ∀ c ∈ calls, t.Loaded c.1) (hcalls_run : bmaps calls t = .ok ((), u)) :
    bmap ip bn u = .ok (a, u) := by
  obtain ⟨hu, g, haddr, hne⟩ := bmap_kept h hip hrun hcalls hcalls_run
  have hipu := g.loaded hip
  have haddr' : u.blockAddr (u.icache ip).inum bn = a := by rw [g.inum, haddr]
  have hwp : wp (bmap ip bn) (fun b v => b = a ∧ v = u) (fun _ => False) u := by
    rw [wp_bmap_of_mapped hu.toWf hipu.caches (hu.allocated hipu.caches) (by rw [haddr']; exact hne)]
    exact ⟨haddr', rfl⟩
  obtain ⟨b, v, hrun', rfl, rfl⟩ := hwp.run_ok
  exact hrun'

/-- `bmap` returns one block for one block number of one file only. -/
theorem bmap_injective (h : s.Inv) (hip : s.Loaded ip) {bn : Nat} {a : UInt32} (hrun : bmap ip bn s = .ok (a, t))
    {calls : List (InodePtr × Nat)} (hcalls : ∀ c ∈ calls, t.Loaded c.1) (hcalls_run : bmaps calls t = .ok ((), u))
    {jp : InodePtr} (hjp : u.Loaded jp) {bm : Nat} {v : Fs} (hrun' : bmap jp bm u = .ok (a, v)) :
    (u.icache ip).inum = (u.icache jp).inum ∧ bn = bm := by
  obtain ⟨hu, g, haddr, hne⟩ := bmap_kept h hip hrun hcalls hcalls_run
  obtain ⟨hv, g', haddr', -⟩ := (wp_bmap_inv hu hjp bm).of_run hrun'
  have hkept : v.blockAddr (s.icache ip).inum bn = a := by rw [g'.blockAddr (by rw [haddr]; exact hne), haddr]
  rw [g.inum]
  exact hv.blockAddr_inj (by rw [hkept]; exact hne) (hkept.trans haddr'.symm)

/-- Operations one after the other, each of them allowed. -/
def InodeOp.play : List InodeOp → Fs → Option Fs
  | [], s => some s
  | op :: ops, s =>
    if s.Allows op then
      match op.exec s with
      | .ok (_, t) => play ops t
      | .error _ => none
    else none

theorem Fs.Reaches.of_play {s₀ : Fs} : ∀ {ops : List InodeOp} {s : Fs}, Fs.Reaches s₀ s → InodeOp.play ops s = some t →
    Fs.Reaches s₀ t
  | [], s, h, hp => Option.some.inj hp ▸ h
  | op :: ops, s, h, hp => by
    unfold InodeOp.play at hp
    split at hp
    · next hallow =>
      split at hp
      · next r hr => exact Fs.Reaches.of_play (.step h op hallow hr) hp
      · cases hp
    · cases hp

end Runs

/-! ## Right after boot -/

/-- The disk of `image d` with an empty inode cache. -/
def booted (d : Dinode) : Fs :=
  (image d).setInode 0 { d with inum := 1, ref := 0, locked := false, valid := true }

theorem booted_empty (d : Dinode) (ip : InodePtr) : ((booted d).icache ip).ref = 0 := by
  by_cases h : ip = 0
  · subst h
    rfl
  · rw [booted, Fs.setInode_icache_ne _ _ h]
    simp [image, h]

theorem booted_wf {d : Dinode} (haddrs : d.addrs = fun _ => 0) (htype : d.type ≠ 0)
    (hsize : d.size.toNat ≤ MAXFILE * BSIZE) : (booted d).Wf :=
  ((image_inv haddrs htype hsize).release 0).toWf

theorem booted_start : (booted emptyFile).Start := ⟨booted_wf rfl (by decide) (Nat.zero_le _), booted_empty emptyFile⟩

/-- Block ownership: in every state that inode operations reach, every pointer on a
    path from an allocated inode names a data block marked used, and no block is on
    two paths. Two block numbers of a file have different blocks, calls of `bmap` return
    the same block only for the same block number of the same file, they do not move a
    block, and no operation frees a block that is free. -/
theorem reaches_owned (s t : Fs) (hs : s.Start) (ht : s.Reaches t) :
    (∀ k js, blockShape.Path k js → t.forest.node k js ≠ 0 →
      (t.forest.node k js).toNat < t.sb.size ∧ ¬ t.sb.IsMeta (t.forest.node k js).toNat ∧
        t.used (t.forest.node k js).toNat = true) ∧
    (∀ k js l ls, blockShape.Path k js → blockShape.Path l ls → t.forest.node k js ≠ 0 →
      t.forest.node k js = t.forest.node l ls → k = l ∧ js = ls) ∧
    (∀ i bn bm, bn < MAXFILE → bm < MAXFILE → bn ≠ bm → t.blockAddr i bn ≠ 0 →
      t.blockAddr i bn ≠ t.blockAddr i bm) ∧
    (∀ ip bn a u calls v, t.Loaded ip → bmap ip bn t = .ok (a, u) → (∀ c ∈ calls, u.Loaded c.1) →
      bmaps calls u = .ok ((), v) → bmap ip bn v = .ok (a, v) ∧
        ∀ jp bm w, v.Loaded jp → bmap jp bm v = .ok (a, w) → (v.icache ip).inum = (v.icache jp).inum ∧ bn = bm) ∧
    ∀ op, t.Allows op → op.exec t ≠ .error .freeingFreeBlock := by
  have hinv := ht.inv hs.inv
  refine ⟨hinv.owned, ?_, ?_, ?_, ?_⟩
  · intro k js l ls hp hq hne heq
    exact hinv.unshared hp hq heq hne
  · intro i bn bm _ _ hdiff hne heq
    exact hdiff (hinv.blockAddr_inj hne heq).2
  · intro ip bn a u calls v hip hrun hcalls hrun'
    exact ⟨bmap_stable hinv hip hrun hcalls hrun', fun jp bm w hjp => bmap_injective hinv hip hrun hcalls hrun' hjp⟩
  · intro op hallow herr
    exact (wp_iff_run.mp (InodeOp.wp_exec hinv hallow)).2 _ herr rfl

/-- A file gets eleven blocks, the last one through the indirect block. It is truncated, and
    written again with holes. -/
def rewritten : List InodeOp :=
  [.beginOp, .iget 1, .ilock 0, .writei 0 numbered 0 5632, .itrunc 0, .writei 0 numbered 0 5, .writei 0 numbered 6144 5]

/-- The first block and one behind the indirect block are different, and the file can be
    truncated again. -/
theorem reaches_owned_rewritten : ∃ t, (booted emptyFile).Reaches t ∧ (∃ a b, a ≠ b ∧ a ≠ 0 ∧ bmap 0 0 t = .ok (a, t) ∧
    bmap 0 12 t = .ok (b, t)) ∧ (InodeOp.itrunc 0).exec t ≠ .error .freeingFreeBlock := by
  have hplay : (InodeOp.play rewritten (booted emptyFile)).any (fun t => t.Loaded 0 ∧
      t.blockAddr (t.icache 0).inum 0 ≠ 0 ∧ t.blockAddr (t.icache 0).inum 12 ≠ 0) = true := by decide +kernel
  have hstart := booted_start
  generalize booted emptyFile = s at *
  obtain ⟨t, ht, htest⟩ := (Option.any_eq_true _ _).mp hplay
  obtain ⟨hip, hzero, htwelve⟩ := of_decide_eq_true htest
  have hreach : s.Reaches t := .of_play .refl ht
  obtain ⟨-, -, -, hbmap, hfree⟩ := reaches_owned s t hstart hreach
  have hinv := hreach.inv hstart.inv
  have hmapped : ∀ bn, t.blockAddr (t.icache 0).inum bn ≠ 0 →
      bmap 0 bn t = .ok (t.blockAddr (t.icache 0).inum bn, t) := by
    intro bn hbn
    have hwp : wp (bmap 0 bn) (fun b v => b = t.blockAddr (t.icache 0).inum bn ∧ v = t) (fun _ => False) t := by
      rw [wp_bmap_of_mapped hinv.toWf hip.caches (hinv.allocated hip.caches) hbn]
      exact ⟨rfl, rfl⟩
    obtain ⟨b, v, hrun, rfl, rfl⟩ := hwp.run_ok
    exact hrun
  refine ⟨t, hreach, ⟨_, _, fun heq => ?_, hzero, hmapped 0 hzero, hmapped 12 htwelve⟩, hfree (.itrunc 0) hip⟩
  have hsame := (hbmap 0 0 _ t [] t hip (hmapped 0 hzero) (fun c hc => by cases hc) rfl).2 0 12 t hip
    (heq ▸ hmapped 12 htwelve)
  exact absurd hsame.2 (by decide)

end Xv6
