-- SUMMARY: Rules for dirlookup, dirlink and namex.
import Xv6.FileSystem.InodeCalls

/-! # Directory calls

A directory without holes is read without changing anything, so `dirlookup` only
takes a reference to the inode it finds, and `dirlink` writes one entry. `namex`
holds one reference at a time.
-/

namespace Xv6

open Prog Fs

variable (A : Prop) {s t : Fs} {o : Own} {dp : InodePtr} {name : List UInt8}

/-! ## Reading entries -/

theorem Fs.Solid.mapped {i : Nat} (h : s.Solid i) (off n : Nat) :
    s.Mapped i off (readLen (s.view i).size.toNat off n) := by
  intro p h1 h2
  refine h _ ?_
  unfold readLen at h2
  simp only [BSIZE]
  omega

/-- `dp` is a directory that the caller has in memory. -/
structure Fs.Dir (s : Fs) (dp : InodePtr) : Prop where
  loaded : s.Loaded dp
  type : (s.icache dp).type = T_DIR

namespace Fs.Dir

theorem view (hdp : s.Dir dp) (h : s.Tidy) : s.view (s.icache dp).inum = (s.icache dp).toDinode :=
  view_of_caches h.cacheInj hdp.loaded.caches

theorem ok (hdp : s.Dir dp) (h : s.Tidy) : s.Solid (s.icache dp).inum ∧ s.Named (s.icache dp).inum := by
  refine h.dirs _ (h.toInv.allocated hdp.loaded.caches) ?_
  rw [hdp.view h]
  exact hdp.type

theorem size_le (hdp : s.Dir dp) (h : s.Tidy) : (s.icache dp).size.toNat ≤ MAXFILE * BSIZE := by
  have := h.sizeLe _ (h.toInv.allocated hdp.loaded.caches)
  rwa [hdp.view h] at this

theorem type_ne (hdp : s.Dir dp) : (s.icache dp).type ≠ T_DEV := by
  rw [hdp.type]
  decide

/-- A directory that the caller holds stays as it is in calls that change no inode. -/
theorem steady (hdp : s.Dir dp) (hsteady : Steady o s t) (hc : t.Covered o) (ho : 0 < o dp) : t.Dir dp := by
  refine ⟨hsteady.loaded hc hdp.loaded ho ho, ?_⟩
  have hd := ((hsteady.entry dp ho).2 hdp.loaded.2).2
  rw [show (t.icache dp).type = (s.icache dp).type from congrArg Dinode.type hd]
  exact hdp.type

theorem sameFile (hdp : s.Dir dp) (hsteady : Steady o s t) (h : t.Tidy) (hc : t.Covered o) (ho : 0 < o dp) :
    SameFile s t (s.icache dp).inum := by
  have hdp' := hdp.steady hsteady hc ho
  rw [← (hsteady.entry dp ho).1]
  have hal := h.toInv.allocated hdp'.loaded.caches
  refine (hsteady.inode _ hal).dir ?_
  rw [hdp'.view h]
  exact hdp'.type

end Fs.Dir

theorem toNat_ofNat_of_le {n : Nat} (h : n ≤ MAXFILE * BSIZE) : (UInt32.ofNat n).toNat = n := by
  have hmax : MAXFILE * BSIZE < 2 ^ 32 := by decide
  rw [UInt32.toNat_ofNat', Nat.mod_eq_of_lt (h.trans_lt hmax)]

/-- `readi(dp, &de, off, sizeof(de))` for entry `k`. -/
theorem wp_readEntry {E : Stop → Prop} {Q : Int × List UInt8 → Fs → Prop} (h : s.Tidy) (hdp : s.Dir dp)
    {k : Nat} (hk : k * DIRENTSIZE < (s.icache dp).size.toNat)
    (hshort : ∀ r : Int × List UInt8, r.1 ≠ DIRENTSIZE → Q r s)
    (hQ : (k + 1) * DIRENTSIZE ≤ (s.icache dp).size.toNat → Q (DIRENTSIZE,
      (s.byte (s.icache dp).inum).slice (k * DIRENTSIZE) DIRENTSIZE) s) :
    wp (readi dp (UInt32.ofNat (k * DIRENTSIZE)) (UInt32.ofNat DIRENTSIZE)) Q E s := by
  have hmax : MAXFILE * BSIZE + DIRENTSIZE < 2 ^ 32 := by decide
  have hsize := hdp.size_le h
  have hoff := toNat_ofNat_of_le (hk.le.trans hsize)
  have hn : (UInt32.ofNat DIRENTSIZE).toNat = DIRENTSIZE := rfl
  rw [wp_readi_of_mapped h.toWf hdp.loaded.caches (h.toInv.allocated hdp.loaded.caches) hdp.type_ne
    ((hdp.ok h).1.mapped _ _), hoff, hn]
  unfold readReply
  rw [hdp.view h, if_neg (by omega)]
  by_cases hfit : (k + 1) * DIRENTSIZE ≤ (s.icache dp).size.toNat
  · have hlen : readLen (s.icache dp).size.toNat (k * DIRENTSIZE) DIRENTSIZE = DIRENTSIZE := by
      unfold readLen
      rw [Nat.succ_mul] at hfit
      omega
    rw [hlen]
    exact hQ hfit
  · refine hshort _ ?_
    dsimp only
    unfold readLen
    rw [Nat.succ_mul] at hfit
    omega

/-! ## Lookup -/

/-- The entry that a lookup of `name` in `dp` comes to. -/
structure Fs.Found (A : Prop) (s t : Fs) (o : Own) (dp : InodePtr) (name : List UInt8) (ip : InodePtr) (k : Nat) :
    Prop where
  step : Step A s t o (o.hold ip) []
  steady : Steady o s t
  inside : (k + 1) * DIRENTSIZE ≤ (s.icache dp).size.toNat
  inum : (t.icache ip).inum = (s.entry (s.icache dp).inum k).inum.toNat
  named : namecmp name (s.entry (s.icache dp).inum k).name = true

theorem runs_dirlookupLoop (h : s.Tidy) (hc : s.Covered o) (hdp : s.Dir dp) :
    ∀ fuel k, Runs (dirlookupLoop dp name fuel (k * DIRENTSIZE)) s fun r t =>
      (r = none → t = s) ∧ ∀ ip off, r = some (ip, off) → ∃ k, off = k * DIRENTSIZE ∧ Found A s t o dp name ip k := by
  intro fuel
  induction fuel with
  | zero =>
    intro k
    exact ⟨fun _ => rfl, fun _ _ hr => by cases hr⟩
  | succ fuel ih =>
    intro k
    simp only [dirlookupLoop, wp_bind, wp_deref]
    split
    · next hk =>
      rw [wp_bind]
      refine wp_readEntry h hdp hk (fun r hr => ?_) fun hfit => ?_
      · rw [if_pos hr]
        trivial
      · rw [if_neg (fun hr => hr rfl)]
        have hnext := ih (k + 1)
        rw [Nat.succ_mul] at hnext
        split
        · exact hnext
        · split
          · next hname =>
            rw [wp_bind]
            refine (runs_iget A h hc ((hdp.ok h).2 k (by rw [hdp.view h]; exact hfit))).post ?_
            rintro ip t ⟨hst, hsteady, hinum⟩
            refine ⟨fun hr => (by cases hr), fun ip' off hr => ?_⟩
            cases hr
            exact ⟨k, rfl, hst, hsteady, hfit, hinum, hname⟩
          · exact hnext
    · exact ⟨fun _ => rfl, fun _ _ hr => by cases hr⟩

theorem runs_dirlookup (h : s.Tidy) (hc : s.Covered o) (hdp : s.Loaded dp) :
    Runs (dirlookup dp name) s fun r t => s.Dir dp ∧ (r = none → t = s) ∧
      ∀ ip off, r = some (ip, off) → ∃ k, off = k * DIRENTSIZE ∧ Found A s t o dp name ip k := by
  simp only [dirlookup, wp_bind, wp_deref]
  split
  · trivial
  · next htype =>
    have hdir : s.Dir dp := ⟨hdp, not_not.mp htype⟩
    rw [← Nat.zero_mul DIRENTSIZE]
    exact (runs_dirlookupLoop A h hc hdir _ 0).post fun _ _ hr => ⟨hdir, hr⟩

/-! ## Writing entries -/

/-- Entry `k` of `dp` is there, or is the next one. -/
def Fs.Slot (s : Fs) (dp : InodePtr) (k : Nat) : Prop :=
  k * DIRENTSIZE = (s.icache dp).size.toNat ∨ (k + 1) * DIRENTSIZE ≤ (s.icache dp).size.toNat

theorem runs_dirlinkLoop (h : s.Tidy) (hdp : s.Dir dp) :
    ∀ fuel k, k * DIRENTSIZE ≤ (s.icache dp).size.toNat → (s.icache dp).size.toNat < fuel + k * DIRENTSIZE →
      Runs (dirlinkLoop dp fuel (k * DIRENTSIZE)) s fun off t => t = s ∧ ∃ k, off = k * DIRENTSIZE ∧ s.Slot dp k := by
  intro fuel
  induction fuel with
  | zero =>
    intro k hle hlt
    omega
  | succ fuel ih =>
    intro k hle hlt
    simp only [dirlinkLoop, wp_bind, wp_deref]
    split
    · next hk =>
      rw [wp_bind]
      refine wp_readEntry h hdp hk (fun r hr => ?_) fun hfit => ?_
      · rw [if_pos hr]
        trivial
      · rw [if_neg (fun hr => hr rfl)]
        split
        · exact ⟨rfl, k, rfl, .inr hfit⟩
        · have hpos : 0 < DIRENTSIZE := by decide
          have hnext := ih (k + 1) hfit (by rw [Nat.succ_mul]; omega)
          rw [Nat.succ_mul] at hnext
          exact hnext
    · next hk => exact ⟨rfl, k, rfl, .inl (by omega)⟩

/-- A directory entry does not cross blocks. -/
theorem touches_entry {k bn : Nat} : Touches (k * DIRENTSIZE) DIRENTSIZE bn ↔ bn = k * DIRENTSIZE / BSIZE := by
  unfold Touches
  simp only [DIRENTSIZE, DIRSIZ, BSIZE]
  omega

/-- A block that is there has a pointer in the inode. -/
theorem Fs.addrs_ne_zero {i bn : Nat} (hal : s.Allocated i) (hne : s.blockAddr i bn ≠ 0) :
    (s.view i).addrs (blockPath bn).1 ≠ 0 := by
  intro h0
  by_cases hbn : bn < MAXFILE
  · rw [blockAddr_of_lt hbn] at hne
    refine hne (Forest.node_of_root_eq_zero _ ?_)
    rw [forest_root hal]
    exact h0
  · simp [blockAddr, hbn] at hne

namespace Fs.Wrote

variable {i k : Nat} {src : Bytes}

theorem entry_eq (hw : Wrote s t dp i (k * DIRENTSIZE) DIRENTSIZE src) (l : Nat) :
    t.entry i l = if l = k then Dirent.ofBytes (src.slice 0 DIRENTSIZE) else s.entry i l := by
  unfold entry
  rw [hw.byte]
  split
  · next hl => rw [hl, ← Bytes.slice_splice]
  · next hl =>
    congr 1
    refine Bytes.slice_congr fun p hp => ?_
    unfold Bytes.splice
    rw [if_neg]
    simp only [DIRENTSIZE, DIRSIZ] at hp ⊢
    omega

/-- Writing an entry that is there, or one behind the last, leaves a directory. -/
theorem dir (hw : Wrote s t dp (s.icache dp).inum (k * DIRENTSIZE) DIRENTSIZE src) (h : s.Tidy)
    (hdp : s.Dir dp) (hk : s.Slot dp k)
    (hsrc : (Dirent.ofBytes (src.slice 0 DIRENTSIZE)).inum.toNat < s.sb.ninodes) :
    (s.Grows (s.icache dp).inum (k * DIRENTSIZE) DIRENTSIZE ∨
      Slots s (s.icache dp).inum (k * DIRENTSIZE) DIRENTSIZE) ∧
    t.Solid (s.icache dp).inum ∧ t.Named (s.icache dp).inum := by
  obtain ⟨hsolid, hnamed⟩ := hdp.ok h
  have hview := hdp.view h
  have hpos : 0 < DIRENTSIZE := by decide
  have hsize := hw.size
  unfold Solid at hsolid
  rw [if_pos hpos, hview] at hsize
  rw [hview] at hsolid
  unfold Slot at hk
  rw [Nat.succ_mul] at hk
  refine ⟨?_, fun bn hbn => ?_, fun l hl => ?_⟩
  · by_cases hgrow : (s.icache dp).size.toNat < k * DIRENTSIZE + DIRENTSIZE
    · left
      unfold Grows
      rw [hview]
      exact ⟨hpos, hgrow⟩
    · refine .inr fun bn hbn => addrs_ne_zero (h.toInv.allocated hdp.loaded.caches) (hsolid bn ?_)
      rw [touches_entry] at hbn
      simp only [DIRENTSIZE, DIRSIZ, BSIZE] at *
      omega
  · by_cases hin : bn * BSIZE < (s.icache dp).size.toNat
    · have hne := hsolid bn hin
      rw [hw.kept bn hne]
      exact hne
    · have hblk : bn = k * DIRENTSIZE / BSIZE := by
        rw [hsize] at hbn
        simp only [DIRENTSIZE, DIRSIZ, BSIZE] at *
        omega
      rw [hblk]
      exact hw.mapped _ le_rfl (by omega)
  · rw [hw.entry_eq, hw.keeps.sb]
    split
    · exact hsrc
    · next hne =>
      refine hnamed l ?_
      rw [hsize] at hl
      rw [hview]
      simp only [DIRENTSIZE, DIRSIZ] at *
      omega

end Fs.Wrote

/-- The nodes on the way to block `bn` of file `i`, and their blocks of the free map. -/
def Fs.wayBlocks (t : Fs) (i bn : Nat) : List Nat :=
  (blockPath bn).2.inits.flatMap fun js =>
    [(t.forest.node (i, (blockPath bn).1) js).toNat, t.sb.BBLOCK (t.forest.node (i, (blockPath bn).1) js).toNat]

theorem Fs.node_mem_wayBlocks {i bn : Nat} {js : List Nat} (hpre : js <+: (blockPath bn).2) :
    (t.forest.node (i, (blockPath bn).1) js).toNat ∈ t.wayBlocks i bn ∧
      t.sb.BBLOCK (t.forest.node (i, (blockPath bn).1) js).toNat ∈ t.wayBlocks i bn := by
  unfold wayBlocks
  simp only [List.mem_flatMap, List.mem_inits, List.mem_cons, List.not_mem_nil, or_false]
  exact ⟨⟨js, hpre, .inl rfl⟩, ⟨js, hpre, .inr rfl⟩⟩

/-- A write to one block logs blocks on the way to it. -/
theorem Fs.Dirty.mem_wayBlocks {i b x : Nat} {B : Nat → Prop} (h : Dirty s t i B x)
    (hB : ∀ bn, B bn → bn = b) (hlt : b < MAXFILE) (hsb : t.sb = s.sb) : x ∈ t.wayBlocks i b := by
  have hmissing : ∀ q, s.Missing i B q → q.1 = (blockPath b).1 ∧ q.2 <+: (blockPath b).2 := by
    rintro q ⟨⟨bn, hbn, hslot, hpre⟩, -⟩
    rw [hB bn hbn] at hslot hpre
    exact ⟨hslot, hpre⟩
  cases h with
  | data bn hbn hne hx =>
    rw [hB bn hbn, blockAddr_of_lt hlt] at hx
    rw [hx]
    exact (node_mem_wayBlocks List.prefix_rfl).1
  | node q hq hne hx =>
    obtain ⟨hslot, hpre⟩ := hmissing q hq
    rw [hx, hslot]
    exact (node_mem_wayBlocks hpre).1
  | bitmap q hq hne hx =>
    obtain ⟨hslot, hpre⟩ := hmissing q hq
    rw [hx, hslot, ← hsb]
    exact (node_mem_wayBlocks hpre).2
  | table k js j hq hne hx =>
    obtain ⟨hslot, hpre⟩ := hmissing (k, js ++ [j]) hq
    dsimp only at hslot hpre
    rw [hx, hslot]
    exact (node_mem_wayBlocks ((List.prefix_append js [j]).trans hpre)).1

/-- Where a block is, no node on the way to it is missing. -/
theorem Fs.not_missing {i b : Nat} {B : Nat → Prop} (hB : ∀ bn, B bn → bn = b) (hne : s.blockAddr i b ≠ 0)
    (q : Fin NADDRS × List Nat) : ¬ s.Missing i B q := by
  rintro ⟨⟨bn, hbn, hslot, ls, hls⟩, h0⟩
  rw [hB bn hbn] at hslot hls
  refine hne ?_
  unfold blockAddr
  split
  · rw [hslot] at h0
    rw [← hls]
    exact Forest.node_append_eq_zero ls h0
  · rfl

namespace Fs.Wrote

variable {k : Nat} {src : Bytes}

/-- Writing an entry as a step: the blocks on the way to it are logged. -/
theorem dirStep {A : Prop} (hw : Wrote s t dp (s.icache dp).inum (k * DIRENTSIZE) DIRENTSIZE src) (h : s.Tidy)
    (hdp : s.Dir dp) (hk : s.Slot dp k)
    (hsrc : (Dirent.ofBytes (src.slice 0 DIRENTSIZE)).inum.toNat < s.sb.ninodes)
    (hlt : k * DIRENTSIZE / BSIZE < MAXFILE) :
    Step A s t o o (s.sb.IBLOCK (s.icache dp).inum :: t.wayBlocks (s.icache dp).inum (k * DIRENTSIZE / BSIZE)) := by
  have hcaches := hdp.loaded.caches
  have hdir := hw.dir h hdp hk hsrc
  refine ⟨hw.tidy h hcaches fun _ => hdir, hw.keeps.sb, fun jp => by rw [hw.ref],
    fun P hP => hw.agree h.toInv hcaches hP fun _ => hdir.1, fun _ => hw.backed h.toInv hcaches, fun _ _ => ?_⟩
  obtain ⟨ds, htrace, hds⟩ := hw.logs
  refine ⟨ds, htrace, fun x hx => ?_⟩
  rcases hds x hx with hdirty | ⟨-, rfl⟩
  · exact List.mem_cons_of_mem _ (hdirty.mem_wayBlocks (fun _ => touches_entry.mp) hlt hw.keeps.sb)
  · exact List.mem_cons_self

/-- An entry that is there is in one block. -/
theorem inPlace {A : Prop} (hw : Wrote s t dp (s.icache dp).inum (k * DIRENTSIZE) DIRENTSIZE src) (h : s.Tidy)
    (hdp : s.Dir dp) (hk : (k + 1) * DIRENTSIZE ≤ (s.icache dp).size.toNat)
    (hsrc : (Dirent.ofBytes (src.slice 0 DIRENTSIZE)).inum.toNat < s.sb.ninodes) :
    Step A s t o o [(s.blockAddr (s.icache dp).inum (k * DIRENTSIZE / BSIZE)).toNat] := by
  have hcaches := hdp.loaded.caches
  have hdir := hw.dir h hdp (.inr hk) hsrc
  have hne : s.blockAddr (s.icache dp).inum (k * DIRENTSIZE / BSIZE) ≠ 0 := by
    refine (hdp.ok h).1 _ ?_
    rw [hdp.view h]
    simp only [DIRENTSIZE, DIRSIZ, BSIZE] at *
    omega
  refine ⟨hw.tidy h hcaches fun _ => hdir, hw.keeps.sb, fun jp => by rw [hw.ref],
    fun P hP => hw.agree h.toInv hcaches hP fun _ => hdir.1, fun _ => hw.backed h.toInv hcaches, fun _ _ => ?_⟩
  obtain ⟨ds, htrace, hds⟩ := hw.logs
  refine ⟨ds, htrace, fun x hx => ?_⟩
  have hno := not_missing (fun bn hbn => touches_entry.mp hbn) hne
  rcases hds x hx with hdirty | ⟨hgrow, -⟩
  · cases hdirty with
    | data bn hbn _ hx =>
      rw [touches_entry.mp hbn, hw.kept _ hne] at hx
      exact List.mem_singleton.mpr hx
    | node q hq _ _ => exact absurd hq (hno q)
    | bitmap q hq _ _ => exact absurd hq (hno q)
    | table k js j hq _ _ => exact absurd hq (hno _)
  · unfold Grows at hgrow
    rw [hdp.view h] at hgrow
    rw [Nat.succ_mul] at hk
    omega

end Fs.Wrote

/-- `writei(dp, &de, off, sizeof(de))` for entry `k`. -/
theorem runs_writeEntry {k : Nat} {src : Bytes} (h : s.Tidy) (hdp : s.Dir dp) (hk : s.Slot dp k) :
    Runs (writei dp src (UInt32.ofNat (k * DIRENTSIZE)) (UInt32.ofNat DIRENTSIZE)) s fun r t =>
      (r = -1 ∧ t = s) ∨ (k * DIRENTSIZE / BSIZE < MAXFILE ∧
        Wrote s t dp (s.icache dp).inum (k * DIRENTSIZE) DIRENTSIZE src) := by
  have hsize := hdp.size_le h
  have hoff : (UInt32.ofNat (k * DIRENTSIZE)).toNat = k * DIRENTSIZE := by
    refine toNat_ofNat_of_le (le_trans ?_ hsize)
    rcases hk with hk | hk
    · exact hk.le
    · rw [Nat.succ_mul] at hk
      omega
  have hn : (UInt32.ofNat DIRENTSIZE).toNat = DIRENTSIZE := rfl
  refine wp_writei_wrote trivial h.toInv hdp.loaded.caches hdp.type_ne (mayLog_true s)
    (fun _ => .inl ⟨rfl, rfl⟩) fun hle t hw => .inr ?_
  rw [hoff, hn] at hle hw
  refine ⟨?_, hw⟩
  simp only [DIRENTSIZE, DIRSIZ, BSIZE] at *
  omega

/-! ## Linking -/

/-- An entry's inode number survives being written and read. -/
theorem Dirent.ofBytes_bytes_inum (de : Dirent) : (ofBytes (de.bytes.slice 0 DIRENTSIZE)).inum = de.inum := by
  have hlt := de.inum.toNat_lt
  have h0 : (de.bytes.slice 0 DIRENTSIZE).getD 0 0 = UInt8.ofNat de.inum.toNat := rfl
  have h1 : (de.bytes.slice 0 DIRENTSIZE).getD 1 0 = UInt8.ofNat (de.inum.toNat / 256) := rfl
  apply UInt16.toNat_inj.mp
  unfold ofBytes
  rw [h0, h1, UInt16.toNat_ofNat', UInt8.toNat_ofNat', UInt8.toNat_ofNat']
  omega

/-- `t` is `s` after `dirlink` on `dp`; block `bn` is the one it may have written. -/
structure Fs.Linked (A : Prop) (s t : Fs) (o : Own) (dp : InodePtr) (bn : Nat) : Prop where
  step : Step A s t o o (s.sb.IBLOCK (s.icache dp).inum :: t.wayBlocks (s.icache dp).inum bn)
  steady : SteadyBut dp o s t
  dir : s.Dir dp
  bn_le : bn ≤ (s.icache dp).size.toNat / BSIZE
  kept : ∀ bn, s.blockAddr (s.icache dp).inum bn ≠ 0 →
    t.blockAddr (s.icache dp).inum bn = s.blockAddr (s.icache dp).inum bn

theorem runs_dirlink (h : s.Tidy) (hc : s.Covered o) (hdp : s.Loaded dp) (ho : 0 < o dp) {n : Nat}
    (hn : n < s.sb.ninodes) : Runs (dirlink dp name n) s fun _ t => ∃ bn, Linked A s t o dp bn := by
  simp only [dirlink, wp_bind]
  refine (runs_dirlookup A h hc hdp).post ?_
  rintro r t ⟨hdir, hnone, hsome⟩
  cases r with
  | some r =>
    obtain ⟨k, -, hf⟩ := hsome r.1 r.2 rfl
    simp only [wp_bind]
    refine (runs_iput A hf.step.tidy (hf.step.covered hc)).post ?_
    rintro - u ⟨hst, hsteady⟩
    have hboth := hf.steady.trans hsteady
    have hstep := hf.step.trans hst
    refine ⟨0, hstep.mono (List.nil_subset _), hboth.but dp, hdir, Nat.zero_le _, fun bn _ => ?_⟩
    rw [(hdir.sameFile hboth hstep.tidy (hstep.covered hc) ho).blockAddr]
  | none =>
    obtain rfl := hnone rfl
    have hloop := runs_dirlinkLoop h hdir ((t.icache dp).size.toNat + 1) 0 (by omega) (by omega)
    rw [Nat.zero_mul] at hloop
    simp only [wp_bind, wp_deref]
    refine hloop.post ?_
    rintro off u ⟨rfl, k, rfl, hk⟩
    refine (runs_writeEntry h hdir hk).post ?_
    rintro r v (⟨rfl, rfl⟩ | ⟨hlt, hw⟩)
    · rw [if_pos (by decide)]
      trivial
    · have hsrc : (Dirent.ofBytes (Bytes.slice
          ({ inum := UInt16.ofNat n, name := name } : Dirent).bytes 0 DIRENTSIZE)).inum.toNat < u.sb.ninodes := by
        rw [Dirent.ofBytes_bytes_inum, UInt16.toNat_ofNat']
        exact (Nat.mod_le _ _).trans_lt hn
      have hle : k * DIRENTSIZE ≤ (u.icache dp).size.toNat := by
        rcases hk with hk | hk
        · exact hk.le
        · rw [Nat.succ_mul] at hk
          omega
      split
      · trivial
      · exact ⟨_, hw.dirStep h hdir hk hsrc hlt, hw.steadyBut o, hdir, Nat.div_le_div_right hle, hw.kept⟩

/-! ## Paths -/

theorem skipelem_length {path rest : List UInt8} (h : skipelem path = some (name, rest)) :
    rest.length < path.length := by
  unfold skipelem at h
  have hskip : (path.dropWhile (· = slash)).length ≤ path.length := (List.dropWhile_suffix _).length_le
  generalize hp : path.dropWhile (· = slash) = p at h hskip
  cases p with
  | nil => simp at h
  | cons c p =>
    have hc : c ≠ slash := by
      have := List.head?_dropWhile_not (fun c => decide (c = slash)) path
      rw [hp] at this
      simpa using this
    simp only [reduceCtorEq, if_false, Option.some.injEq, Prod.mk.injEq] at h
    rw [← h.2, List.dropWhile_cons_of_pos (by simpa using hc)]
    calc ((p.dropWhile (· ≠ slash)).dropWhile (· = slash)).length
        ≤ (p.dropWhile (· ≠ slash)).length := (List.dropWhile_suffix _).length_le
      _ ≤ p.length := (List.dropWhile_suffix _).length_le
      _ < path.length := hskip

/-- What a path lookup leaves: a reference to its result. -/
def Fs.Resolved (A : Prop) (s t : Fs) (o o' : Own) : Option (InodePtr × List UInt8) → Prop
  | none => Step A s t o o' []
  | some (ip, _) => Step A s t o (o'.hold ip) []

theorem Fs.Resolved.of_step {A : Prop} {u : Fs} {o₁ o₂ o₃ : Own} {r : Option (InodePtr × List UInt8)}
    (h : Step A s t o₁ o₂ []) (h' : Resolved A t u o₂ o₃ r) : Resolved A s u o₁ o₃ r := by
  cases r with
  | none => exact h.trans h'
  | some r => exact h.trans h'

theorem runs_namexLoop (parent : Bool) :
    ∀ (fuel : Nat) (path : List UInt8) (ip : InodePtr) (s : Fs), path.length < fuel → s.Tidy →
      s.Covered (o.hold ip) →
      Runs (namexLoop parent fuel ip path) s fun r t => Resolved A s t (o.hold ip) o r ∧ Steady o s t := by
  intro fuel
  induction fuel with
  | zero =>
    intro path ip s hlen
    omega
  | succ fuel ih =>
    intro path ip s hlen h hc
    have hput : ∀ {t : Fs}, Step A s t (o.hold ip) (o.hold ip) [] → Steady (o.hold ip) s t →
        Runs (iunlockput ip) t fun _ u => Resolved A s u (o.hold ip) o none ∧ Steady o s u := by
      intro t hst hsteady
      refine (runs_iunlockput A hst.tidy (hst.covered hc)).post ?_
      rintro - u ⟨hst', hsteady'⟩
      exact ⟨hst.trans hst', (hsteady.mono (o.le_hold ip)).trans hsteady'⟩
    simp only [namexLoop]
    split
    · split
      · simp only [wp_bind]
        refine (runs_iput A h hc).post ?_
        rintro - t ⟨hst, hsteady⟩
        exact ⟨hst, hsteady⟩
      · exact ⟨.refl h, .refl o s⟩
    · next name rest hskip =>
      simp only [wp_bind]
      refine (runs_ilock A h hc (o.hold_pos ip)).post ?_
      rintro - t ⟨hst, hsteady, hip⟩
      simp only [wp_deref]
      split
      · simp only [wp_bind]
        exact hput hst hsteady
      · split
        · simp only [wp_bind]
          refine (runs_iunlock A (o.hold ip) hst.tidy).post ?_
          rintro - u ⟨hst', hsteady'⟩
          exact ⟨hst.trans hst', (hsteady.trans hsteady').mono (o.le_hold ip)⟩
        · simp only [wp_bind]
          refine (runs_dirlookup A hst.tidy (hst.covered hc) hip).post ?_
          rintro r u ⟨-, hnone, hsome⟩
          cases r with
          | none =>
            obtain rfl := hnone rfl
            simp only [wp_bind]
            exact hput hst hsteady
          | some r =>
            obtain ⟨k, -, hf⟩ := hsome r.1 r.2 rfl
            have hswap := o.hold_comm ip r.1
            have hst₂ := hst.trans hf.step
            rw [hswap] at hst₂
            simp only [wp_bind]
            refine (runs_iunlockput A hst₂.tidy (hst₂.covered hc)).post ?_
            rintro - v ⟨hst', hsteady'⟩
            have hst₃ := hst₂.trans hst'
            refine (ih rest r.1 v ?_ hst₃.tidy (hst₃.covered hc)).post ?_
            · have := skipelem_length hskip
              omega
            · rintro q w ⟨hq, hsteady''⟩
              refine ⟨hq.of_step hst₃, ?_⟩
              have h₁ := (hsteady.trans hf.steady).mono (o.le_hold ip)
              exact (h₁.trans (hsteady'.mono (o.le_hold r.1))).trans hsteady''

theorem runs_namex (h : s.Tidy) (hc : s.Covered o) {cwd : InodePtr} (hcwd : s.Held cwd)
    (path : List UInt8) (parent : Bool) :
    Runs (namex cwd path parent) s fun r t => Resolved A s t o o r ∧ Steady o s t := by
  have hloop : ∀ {ip : InodePtr} {t : Fs}, Step A s t o (o.hold ip) [] → Steady o s t →
      Runs (namexLoop parent (path.length + 1) ip path) t fun r u => Resolved A s u o o r ∧ Steady o s u := by
    intro ip t hst hsteady
    refine (runs_namexLoop A parent _ path ip t (Nat.lt_succ_self _) hst.tidy (hst.covered hc)).post ?_
    rintro r u ⟨hr, hsteady'⟩
    exact ⟨hr.of_step hst, hsteady.trans hsteady'⟩
  simp only [namex]
  split <;> simp only [wp_bind]
  · refine (runs_iget A h hc h.root).post ?_
    rintro ip t ⟨hst, hsteady, -⟩
    exact hloop hst hsteady
  · refine (runs_idup A o h hcwd).post ?_
    rintro ip t ⟨rfl, hst, hsteady⟩
    exact hloop hst hsteady

theorem runs_namei (h : s.Tidy) (hc : s.Covered o) {cwd : InodePtr} (hcwd : s.Held cwd) (path : List UInt8) :
    Runs (namei cwd path) s fun r t => (r = none → Step A s t o o []) ∧
      (∀ ip, r = some ip → Step A s t o (o.hold ip) []) ∧ Steady o s t := by
  simp only [namei, wp_bind, wp_pure]
  refine (runs_namex A h hc hcwd path false).post ?_
  rintro r t ⟨hr, hsteady⟩
  cases r with
  | none => exact ⟨fun _ => hr, fun _ hip => by simp at hip, hsteady⟩
  | some r =>
    refine ⟨fun hno => by simp at hno, fun ip hip => ?_, hsteady⟩
    obtain rfl : r.1 = ip := by simpa using hip
    exact hr

end Xv6
