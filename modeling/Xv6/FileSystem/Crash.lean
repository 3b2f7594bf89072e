-- SUMMARY: After a crash the files are as the first calls have left them, all that have returned among these.
import Xv6.FileSystem.Logged

/-! # Crashes

Each call is a transaction of the log. What it logs is all that it changes, inodes in memory
agree with the disk between calls, and the log makes whole transactions durable. So a kernel
that starts after a crash finds the files that the calls up to some point have left.
-/

namespace Xv6

open Fs Journal

variable {s t : Fs} {o o' : Own}

/-- Whatever calls do, no block is in two places of files, those that are in one are marked as used
    and hold no metadata, directories name inodes that exist, and an entry of the inode cache
    stays as long as a process refers to it. -/
theorem calls_keep_consistent (h : FsRun (fun s c => c.WritesThrough s) s o t o') (hs : s.Standing o) :
    t.forest.Unshared blockShape ∧
    (∀ k js, blockShape.Path k js → t.forest.node k js ≠ 0 →
      t.used (t.forest.node k js).toNat = true ∧ ¬ t.sb.IsMeta (t.forest.node k js).toNat) ∧
    (∀ i k, t.Allocated i → (t.view i).type = T_DIR → (k + 1) * DIRENTSIZE ≤ (t.view i).size.toNat →
      (t.entry i k).inum.toNat < t.sb.ninodes) ∧
    ∀ ip, 0 < o' ip → t.Held ip ∧ (t.icache ip).inum < t.sb.ninodes := by
  have ht := h.standing hs
  refine ⟨ht.tidy.unshared, fun k js hp hne => ?_, fun i k hal hdir hk => (ht.tidy.dirs i hal hdir).2 k hk,
    fun ip hip => ?_⟩
  · obtain ⟨-, hdata, hused⟩ := ht.tidy.owned hp hne
    exact ⟨hused, hdata⟩
  · have hheld := ht.covered.held hip
    exact ⟨hheld, ht.tidy.cacheRange ip hheld⟩

theorem creation_keeps_consistent : ∃ t : Fs, t.log.trace ≠ [] ∧ t.forest.Unshared blockShape := by
  obtain ⟨t, o', hdoes, htrace⟩ := exists_created
  have hrun : FsRun (fun s c => c.WritesThrough s) _ _ t o' := .step .refl (.sysOpen ..) trivial hdoes
  exact ⟨t, by simp [htrace], (calls_keep_consistent hrun image_standing).1⟩

/-- What `iinit` and `initlog` make of disk `d` once it is recovered. -/
def mount (d : Disk) (devsw : Int16 → Dev) : Fs where
  sb := .ofBytes (d SBLOCK)
  disk := d
  icache := fun _ => { Dinode.blank with inum := 0, ref := 0, locked := false, valid := false }
  log := { size := (Superblock.ofBytes (d SBLOCK)).nlog, outstanding := 0, lh := [], writes := [] }
  devsw := devsw

section Mount

variable {d : Disk} {devsw : Int16 → Dev}

theorem mount_not_caches (ip : InodePtr) (i : Nat) : ¬ (mount d devsw).Caches ip i := fun h =>
  absurd h.2.1 Bool.false_ne_true

/-- The disk is `d` but for the log. -/
structure Fs.Mirrors (s : Fs) (d : Disk) : Prop where
  nlog : s.sb.nlog = LOGSIZE
  home : ∀ {b}, Home s.sb.logstart b → d b = s.disk b

theorem Fs.Mirrors.disk_eq (h : s.Mirrors d) (hwf : s.sb.Wf) {b : Nat} (hlt : b < s.sb.size)
    (hlog : b < s.sb.logstart ∨ s.sb.logstart + s.sb.nlog ≤ b) : d b = s.disk b := by
  refine h.home ⟨h.nlog ▸ hlog, ?_⟩
  have hsize := hwf.sizeLe
  simp only [FSSIZE] at hsize
  omega

namespace Fs.Standing

variable (h : s.Standing o) (hd : s.Mirrors d)
include h hd

theorem mount_SBLOCK : d SBLOCK = s.disk SBLOCK :=
  hd.disk_eq h.tidy.sbWf (h.tidy.sbWf.isMeta_lt (.inr (.inl rfl))) (.inl h.tidy.sbWf.logStart)

theorem mount_sb : (mount d devsw).sb = s.sb := (congrArg _ (h.mount_SBLOCK hd)).trans h.tidy.sbDisk

/-- Inodes in memory are on the disk. -/
theorem mount_view {i : Nat} (hi : i < s.sb.ninodes) : (mount d devsw).view i = s.view i := by
  have hdisk : d (s.sb.IBLOCK i) = s.disk (s.sb.IBLOCK i) := by
    refine hd.disk_eq h.tidy.sbWf (h.tidy.sbWf.isMeta_lt (h.tidy.sbWf.IBLOCK_isMeta hi)) (.inr ?_)
    exact h.tidy.sbWf.inodeStart.trans (Nat.le_add_left ..)
  have hview : s.view i = s.dinode i := by
    rcases view_cases h.tidy.cacheInj i with ⟨ip, hip, hview⟩ | ⟨-, hview⟩
    · rw [hview, ← h.agree ip ⟨hip.1, hip.2.1⟩ trivial, hip.2.2]
    · exact hview
  rw [view_of_not_cached fun ip => mount_not_caches ip i, hview]
  unfold dinode
  rw [h.mount_sb hd]
  exact congrArg (Dinode.get · _) hdisk

theorem mount_data {b : Nat} (hlt : b < s.sb.size) (hb : ¬ s.sb.IsMeta b) : d b = s.disk b := by
  refine hd.disk_eq h.tidy.sbWf hlt ?_
  unfold Superblock.IsMeta at hb
  omega

theorem mount_node {k : Nat × Fin NADDRS} {js : List Nat} (hp : blockShape.Path k js) :
    (mount d devsw).forest.node k js = s.forest.node k js := by
  refine Forest.node_congr (root_congr (h.mount_sb hd) fun hi => ?_) (fun js' m hp' hne => ?_) hp
  · rw [h.mount_view hd hi]
    exact ⟨rfl, rfl⟩
  · have howned := h.tidy.owned hp'.init hne
    rw [forest_child, forest_child]
    exact congrArg (·.word m) (h.mount_data hd howned.1 howned.2.1)

theorem mount_sameFile {i : Nat} (hi : i < s.sb.ninodes) : SameFile s (mount d devsw) i := by
  have haddr : (mount d devsw).blockAddr i = s.blockAddr i := by
    funext bn
    by_cases hbn : bn < MAXFILE
    · rw [blockAddr_of_lt hbn, blockAddr_of_lt hbn, h.mount_node hd (blockPath_path hbn i)]
    · simp [Fs.blockAddr, hbn]
  refine ⟨by rw [h.mount_view hd hi], by rw [h.mount_view hd hi], haddr, funext fun p => ?_⟩
  unfold Fs.byte Fs.block
  rw [haddr]
  split
  · rfl
  · next hne =>
    have howned := h.tidy.blockAddr_owned hne
    exact congrFun (h.mount_data hd howned.1 howned.2.1) _

theorem mount_file : (mount d devsw).file = s.file := by
  funext i
  unfold Fs.file
  rw [h.mount_sb hd]
  split
  · next hi => rw [(h.mount_sameFile hd hi).size, (h.mount_sameFile hd hi).byte]
  · rfl

theorem mount : (mount d devsw).Standing Own.none := by
  have hsb : (Xv6.mount d devsw).sb = s.sb := h.mount_sb hd
  have hwf : (Xv6.mount d devsw).Wf := by
    refine h.tidy.toWf.of_subtree hsb (h.mount_SBLOCK hd) (fun b hlt hb _ => ?_) (fun _ _ hp _ => h.mount_node hd hp)
      (fun _ _ href => absurd href (lt_irrefl 0)) (fun _ href => absurd href (lt_irrefl 0)) fun i hi => ?_
    · have hmap := h.tidy.sbWf.isMeta_lt (h.tidy.sbWf.BBLOCK_isMeta hlt)
      have hafter : s.sb.logstart + s.sb.nlog ≤ s.sb.BBLOCK b :=
        h.tidy.sbWf.inodeStart.trans ((Nat.le_of_add_right_le h.tidy.sbWf.bmapStart).trans (Nat.le_add_left ..))
      unfold used
      rw [hsb]
      exact (congrArg (Bytes.bit · _) (hd.disk_eq h.tidy.sbWf hmap (.inr hafter))).trans hb
    · have hlt := hsb ▸ hi.1
      have hview : (Xv6.mount d devsw).view i = s.view i := h.mount_view hd hlt
      rw [hview]
      exact h.tidy.sizeLe i ⟨hlt, hview ▸ hi.2⟩
  refine ⟨h.tidy.of ⟨hwf, fun ip i hip => absurd hip (mount_not_caches ip i)⟩ hsb
    (fun i hi _ => .inl (h.mount_sameFile hd (hsb ▸ hi.1))) (fun ip hip => ?_) fun ip hip => ?_, fun _ => le_rfl,
    fun ip hip => ?_⟩ <;> exact absurd hip.caches (mount_not_caches ip _)

end Fs.Standing

end Mount

/-- The call is one transaction. -/
def FsCall.OneOp : FsCall → Prop
  | .write (.write f _ n) | .write (.pwrite f _ n _) =>
    f.writable = true ∧ f.type = .inode ∧ 0 < n.toInt ∧ n.toInt ≤ maxChunk
  | .fileclose f => f.type = .inode ∧ f.ref = 1
  | _ => True

/-- Calls with what they log, one after the other. -/
inductive Calls (s : Fs) (o : Own) : List (FsCall × List Update) → Fs → Own → Prop where
  | nil : Calls s o [] s o
  | call {t u : Fs} {o₁ o₂ : Own} {cs : List (FsCall × List Update)} {c : FsCall} {us : List Update}
      (h : Calls s o cs t o₁) (hone : c.OneOp) (hok : c.WritesThrough t) (hdoes : c.Does t u o₁ o₂)
      (hus : t.Updated u us) : Calls s o (cs ++ [(c, us)]) u o₂

namespace Calls

variable {cs : List (FsCall × List Update)}

theorem disk (h : Calls s o cs t o') : t.disk = durable s.disk (cs.map Prod.snd) := by
  induction h with
  | nil => rfl
  | call h hone hok hdoes hus ih =>
    rw [List.map_append, hus.disk, ih]
    exact (durable_append _ _ _).symm

theorem standing (h : Calls s o cs t o') (hs : s.Standing o) : t.Standing o' ∧ t.sb = s.sb := by
  induction h with
  | nil => exact ⟨hs, rfl⟩
  | call h hone hok hdoes hus ih =>
    have htakes := hdoes.takes ih.1 hok
    exact ⟨htakes.standing ih.1, htakes.sb.trans ih.2⟩

theorem take (h : Calls s o cs t o') (k : Nat) : ∃ u o₁, Calls s o (cs.take k) u o₁ := by
  induction h with
  | nil => exact ⟨s, o, List.take_nil.symm ▸ .nil⟩
  | @call t u o₁ o₂ cs c us h hone hok hdoes hus ih =>
    by_cases hk : k ≤ cs.length
    · rw [List.take_append_of_le_length hk]
      exact ih
    · rw [List.take_of_length_le (by simp; omega)]
      exact ⟨u, o₂, h.call hone hok hdoes hus⟩

end Calls

/-- The operations are the transactions `uss`, one after the other. -/
def Follows (start : Nat) (uss : List (List Update)) (j : State) (l : Label) : Prop :=
  Frugal start j l ∧ ∀ p, l = .endOp p → uss[j.committed.length]? = some j.current

/-- The log has made some of the transactions `uss` durable, and commits the next one. -/
structure Tracks (uss : List (List Update)) (j : State) : Prop where
  committed : j.committed <+: uss
  next : ∀ {tail}, j.commit = some (.writeLog tail) → uss[j.committed.length]? = some j.current

section Runs

variable {start : Nat} {uss : List (List Update)} {j k : State} {l : Label}

theorem Tracks.commit (h : Tracks uss j) {tail : Nat} (hpc : j.commit = some (.writeLog tail)) :
    j.committed ++ [j.current] <+: uss := by
  have htake : uss.take (j.committed.length + 1) = j.committed ++ [j.current] := by
    rw [List.take_add_one, ← List.prefix_iff_eq_take.mp h.committed, h.next hpc]
    rfl
  exact htake ▸ List.take_prefix ..

theorem Tracks.step {active : Finset Nat} (h : Tracks uss j) (hb : j.Brackets active) (hok : Follows start uss j l)
    (hstep : j.Step start l k) : Tracks uss k := by
  refine ⟨?_, fun {tail} hpc => ?_⟩
  · cases hstep with
    | nothing hpc _ | head hpc _ => exact h.commit hpc
    | _ => exact h.committed
  · cases hstep with
    | endOp hop => exact hok.2 _ rfl
    | logWrite hop hfree hroom => exact absurd ((hb.commit_eq_none hop).symm.trans hpc) (Option.some_ne_none _).symm
    | copy hpc' hlt => exact h.next hpc'
    | nothing | head | install | erase => cases hpc
    | _ => exact h.next hpc

theorem Tracks.run {T d : Disk} (hredo : Redo start T d [] 0)
    (h : Run (State.next start) (Follows start uss) (.init d [] 0) j) : Tracks uss j := by
  induction h with
  | refl => exact ⟨List.nil_prefix, nofun⟩
  | step hrun l hok hstep ih =>
    obtain ⟨active, hb, -⟩ := (hrun.mono And.left).journaled hredo
    exact ih.step hb hok (State.step_of_next hstep)

end Runs

/-- Calls run one after the other, each as a transaction of the log, until the machine crashes.
    What is read from a block meanwhile is what the calls have written. The files that are
    there after recovery are those after the first calls, all whose `end_op` has returned
    among these, and the file system and the log are in order, so that it can go on. -/
theorem crash_leaves_calls {cs : List (FsCall × List Update)} {d : Disk} {j : State} (hs : s.Standing o)
    (hd : s.Mirrors d) (hclean : getHead (d s.sb.logstart) = []) (h : Calls s o cs t o')
    (hrun : Run (State.next s.sb.logstart) (Follows s.sb.logstart (cs.map Prod.snd)) (.init d [] 0) j) :
    ∃ k u o₁, j.returned ≤ k ∧ k ≤ cs.length ∧ Calls s o (cs.take k) u o₁ ∧
      (∀ b, Home s.sb.logstart b → j.bread b = replay u.disk j.current b) ∧
      ∀ v, Run (Machine.next s.sb.logstart) Recovering (Machine.crash (.running j)) (.running v) →
        (mount v.disk u.devsw).Standing Own.none ∧ (mount v.disk u.devsw).file = u.file ∧
        getHead (v.disk s.sb.logstart) = [] := by
  have hredo : Redo s.sb.logstart s.disk d [] 0 := .nil hclean hd.home
  have htracks := Tracks.run hredo hrun
  have hfrugal := hrun.mono And.left
  obtain ⟨active, -, hjournaled⟩ := hfrugal.journaled hredo
  obtain ⟨u, o₁, hu⟩ := h.take j.committed.length
  have hdisk : u.disk = durable s.disk j.committed := by
    rw [hu.disk, List.map_take, ← List.prefix_iff_eq_take.mp htracks.committed]
  obtain ⟨hstanding, hsb⟩ := hu.standing hs
  refine ⟨_, u, o₁, hjournaled.returned_le, ?_, hu, fun b hb => hdisk ▸ hjournaled.view hb, fun v hv => ?_⟩
  · exact htracks.committed.length_le.trans_eq (List.length_map _)
  · have hafter := hfrugal.recovers hredo hv
    have hmirrors : u.Mirrors v.disk := ⟨hsb ▸ hd.nlog, fun hb => hdisk ▸ hafter.disk_of_nil (hsb ▸ hb)⟩
    exact ⟨hstanding.mount hmirrors, hstanding.mount_file hmirrors, hafter.header⟩

/-- A crash while a file is created, after its first `log_write`. -/
theorem creation_crashes : ∃ j, j.current.length = 1 ∧ ∃ u : Fs, ∀ v,
    Run (Machine.next 2) Recovering (Machine.crash (.running j)) (.running v) →
      (mount v.disk u.devsw).file = u.file := by
  obtain ⟨t, o', hdoes, htrace⟩ := exists_created
  obtain ⟨-, us, hus⟩ := hdoes.updated rfl
  have hblocks : us.map Prod.fst = [32, 32, 58, 68, 68, 32] := by
    rw [hus.eq_writes rfl, List.map_reverse]
    exact congrArg List.reverse htrace
  obtain _ | ⟨⟨b, c⟩, us⟩ := us
  · cases hblocks
  obtain rfl : b = 32 := (List.cons.inj hblocks).1
  have hcalls := Calls.nil.call (c := .sysOpen 0 [97] (O_CREATE ||| O_RDWR) true) trivial trivial hdoes hus
  have hbegin : Run (State.next 2) (Follows 2 [(32, c) :: us]) (.init (image emptyDirectory).disk [] 0) _ :=
    .step .refl (.beginOp 0) ⟨⟨trivial, nofun⟩, nofun⟩ rfl
  have hwrite := hbegin.step (.logWrite 0 32 c) ⟨of_decide_eq_true rfl, nofun⟩ rfl
  obtain ⟨k, u, o₁, -, -, -, -, hafter⟩ :=
    crash_leaves_calls image_standing ⟨rfl, fun _ => rfl⟩ (by decide +kernel) hcalls hwrite
  exact ⟨_, rfl, u, fun v hv => (hafter v hv).2.1⟩

end Xv6
