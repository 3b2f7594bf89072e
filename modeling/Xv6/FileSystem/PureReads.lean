-- SUMMARY: Reads through open files change nothing, as long as no write has left a hole.
import Xv6.FileSystem.DirectoryCalls
import Xv6.FileSystem.PositionalWrite

/-! # Pure reads

`fileread` and `pfileread` call `readi` outside of a transaction, and `readi` finds blocks
with `bmap`, which allocates those that are missing. So a read is pure just if there is a
block for every byte below the size of the file. `writei` keeps that unless it starts
behind the end of the last block.
-/

namespace Xv6

open Prog

/-! ## Files without holes -/

/-- Between system calls: no transaction is under way, nobody has an inode locked, and
    regular files have no holes. -/
structure Fs.Gapless (s : Fs) : Prop where
  inv : s.Inv
  outside : s.log.outstanding = 0
  unlocked : ∀ ip, s.Held ip → (s.icache ip).locked = false
  solid : ∀ ip, s.Regular ip → s.Solid (s.icache ip).inum

/-- The number of bytes in the file of `ip`. -/
def Fs.length (s : Fs) (ip : InodePtr) : Nat := (s.view (s.icache ip).inum).size.toNat

/-- A write at `off` starts in a block of the file or right behind the last one. -/
def Fs.Adjoins (s : Fs) (ip : InodePtr) (off : Nat) : Prop := off / BSIZE ≤ (s.length ip + (BSIZE - 1)) / BSIZE

theorem Fs.Adjoins.mono {s t : Fs} {ip : InodePtr} {off : Nat} (h : s.Adjoins ip off) (hle : s.length ip ≤ t.length ip) :
    t.Adjoins ip off :=
  h.trans (Nat.div_le_div_right (Nat.add_le_add_right hle _))

theorem Fs.adjoins_of_le {s : Fs} {ip : InodePtr} {off : Nat} (h : off ≤ s.length ip) : s.Adjoins ip off :=
  Nat.div_le_div_right (h.trans (Nat.le_add_right _ _))

/-- What a write leaves: a file system without holes, with the same files in the cache. -/
structure Fs.Grown (s t : Fs) (ip : InodePtr) : Prop where
  gapless : t.Gapless
  regular : ∀ jp, s.Regular jp → t.Regular jp
  length : s.length ip ≤ t.length ip

theorem Fs.Grown.refl {s : Fs} (h : s.Gapless) (ip : InodePtr) : Grown s s ip := ⟨h, fun _ hr => hr, le_rfl⟩

theorem Fs.Grown.trans {s t u : Fs} {ip : InodePtr} (h : Grown s t ip) (h' : Grown t u ip) : Grown s u ip :=
  ⟨h'.gapless, fun jp hr => h'.regular jp (h.regular jp hr), h.length.trans h'.length⟩

section Chunk

variable {s w : Fs} {ip : InodePtr} {src : Bytes} {off n : Nat}

/-- The blocks of a file after a write that does not start behind the last one. -/
theorem Fs.Wrote.solid {i : Nat} (h : Wrote s w ip i off n src) (hs : s.Solid i)
    (hoff : 0 < n → off / BSIZE ≤ ((s.view i).size.toNat + (BSIZE - 1)) / BSIZE) : w.Solid i := by
  intro bn hbn
  by_cases hold : bn * BSIZE < (s.view i).size.toNat
  · rw [h.kept bn (hs bn hold)]
    exact hs bn hold
  · rw [h.size] at hbn
    split at hbn
    · next hn =>
      have htouches : Touches off n bn := by
        have hfirst := hoff hn
        unfold Touches BSIZE at *
        omega
      obtain ⟨p, hle, hlt, rfl⟩ := htouches.exists_pos hn
      exact h.mapped p hle hlt
    · exact absurd hbn hold

/-- A field that neither locks nor contents are part of. -/
structure Inode.Fixed {α : Type} (f : Inode → α) : Prop where
  lock : ∀ x d, f (x.lock d) = f x
  unlock : ∀ x : Inode, f { x with locked := false } = f x
  head : ∀ x : Inode, f x.head = f x

theorem Inode.fixed_ref : Fixed Inode.ref := ⟨fun _ _ => rfl, fun _ => rfl, fun _ => rfl⟩

theorem Inode.fixed_inum : Fixed Inode.inum := ⟨fun _ _ => rfl, fun _ => rfl, fun _ => rfl⟩

theorem Fs.leave_field {α : Type} {f : Inode → α} (hf : Inode.Fixed f) (hkeeps : Keeps (s.enter ip) w)
    (jp : InodePtr) : f ((w.leave ip).icache jp) = f (s.icache jp) := by
  have henter : f ((s.enter ip).icache jp) = f (s.icache jp) := by
    unfold enter lockInode
    by_cases hj : jp = ip
    · rw [hj, setInode_icache_same]
      exact hf.lock _ _
    · rw [setInode_icache_ne _ _ hj]
      rfl
  rw [← henter, ← hkeeps.field f hf.head]
  unfold leave unlockInode
  by_cases hj : jp = ip
  · rw [hj, setLog_icache, setInode_icache_same]
    exact hf.unlock _
  · rw [setLog_icache, setInode_icache_ne _ _ hj]

/-- The end of a chunk, in which only the file of `ip` has changed. -/
theorem Fs.Gapless.leave (h : s.Gapless) (hinv : w.Inv) (hkeeps : Keeps (s.enter ip) w)
    (hicache : ∀ jp, jp ≠ ip → w.icache jp = (s.enter ip).icache jp)
    (htype : ∀ jp, s.Held jp → (w.view (s.icache jp).inum).type = (s.view (s.icache jp).inum).type)
    (hsolid : ∀ jp, s.Regular jp → w.Solid (s.icache jp).inum)
    (hlength : s.length ip ≤ (w.view (s.icache ip).inum).size.toNat) : Grown s (w.leave ip) ip := by
  have hend := same_leave hinv ip
  have hinum := leave_field Inode.fixed_inum hkeeps
  have hheld : ∀ jp, (w.leave ip).Held jp ↔ s.Held jp := fun jp => by
    rw [Held, Held, leave_field Inode.fixed_ref hkeeps]
  have hregular : ∀ jp, (w.leave ip).Regular jp ↔ s.Regular jp := fun jp => by
    rw [Regular, Regular, hheld, hinum, hend.view]
    exact and_congr_right fun hjp => by rw [htype jp hjp]
  refine ⟨⟨hinv.leave ip, ?_, fun jp hjp => ?_, fun jp hjp => ?_⟩, fun jp hjp => (hregular jp).mpr hjp, ?_⟩
  · have hlog : w.log.finish.outstanding = s.log.outstanding := by
      rw [Log.finish_outstanding, hkeeps.outstanding]
      rfl
    exact hlog.trans h.outside
  · unfold Fs.leave unlockInode
    rw [setLog_icache]
    by_cases hj : jp = ip
    · rw [hj, setInode_icache_same]
    · rw [setInode_icache_ne _ _ hj, hicache jp hj, enter, lockInode, setInode_icache_ne _ _ hj]
      exact h.unlocked jp ((hheld jp).mp hjp)
  · rw [hinum]
    exact (hend.sameFile _).solid (hsolid jp ((hregular jp).mp hjp))
  · rw [length, length, hinum, hend.view]
    exact hlength

/-- One chunk. -/
theorem wp_writeChunk_grown {off : UInt32} (h : s.Gapless) (hr : s.Regular ip) (hn : n < 2 ^ 32)
    (hoff : 0 < n → off.toNat + n ≤ MAXFILE * BSIZE → s.Adjoins ip off.toNat) :
    wp (writeChunk ip src off n) (fun r t => Fs.Grown s t ip ∧
      (r = -1 ∨ r = n ∧ off.toNat + n ≤ MAXFILE * BSIZE ∧ (0 < n → off.toNat + n ≤ t.length ip))) (fun _ => True) s := by
  have hsame := Fs.same_enter h.inv hr.1
  refine wp_writeChunk mayStop_true h.inv hr.1 hn (fun _ hdev => ?_) (fun htyped hbig => ?_) fun htyped _ hle w hw => ?_
  · rw [hr.2] at hdev
    exact absurd hdev (by decide)
  · refine ⟨h.leave (h.inv.enter hr.1 htyped) (.refl _) (fun _ _ => rfl) (fun jp _ => by rw [hsame.view])
      (fun jp hjp => (hsame.sameFile _).solid (h.solid jp hjp)) (by rw [hsame.view]; exact le_rfl), .inl rfl⟩
  · have hrange : ∀ jp, s.Held jp → (s.icache jp).inum < (s.enter ip).sb.ninodes := fun jp hjp =>
      hsame.sb.symm ▸ h.inv.cacheRange jp hjp
    have hsize : (w.view (s.icache ip).inum).size.toNat =
        if 0 < n then max (s.length ip) (off.toNat + n) else s.length ip := by
      rw [hw.size, hsame.view]
      rfl
    have hgrown : Fs.Grown s (w.leave ip) ip := by
      refine h.leave hw.inv hw.keeps hw.icache (fun jp hjp => ?_) (fun jp hjp => ?_) ?_
      · by_cases hj : (s.icache jp).inum = (s.icache ip).inum
        · rw [hj, hw.type, hsame.view]
        · rw [hw.view _ (hrange jp hjp) hj, hsame.view]
      · have hsolid := (hsame.sameFile _).solid (h.solid jp hjp)
        by_cases hj : (s.icache jp).inum = (s.icache ip).inum
        · rw [hj] at hsolid ⊢
          refine hw.solid hsolid fun hpos => ?_
          rw [hsame.view]
          exact hoff hpos hle
        · exact (hw.other _ (hrange jp hjp.1) hj).solid hsolid
      · rw [hsize]
        split
        · exact le_max_left _ _
        · exact le_rfl
    refine ⟨hgrown, .inr ⟨rfl, hle, fun hpos => ?_⟩⟩
    rw [Fs.length, Fs.leave_field Inode.fixed_inum hw.keeps, (Fs.same_leave hw.inv ip).view, hsize, if_pos hpos]
    exact le_max_right _ _

end Chunk

/-! ## The calls -/

section Loops

variable {ip : InodePtr}

/-- All chunks of `pfilewrite` go to the same place. -/
theorem wp_pfilewriteLoop_grown (addr : Bytes) (n : Nat) (hn : n < 2 ^ 32) (off : UInt32) (fuel i : Nat) (s : Fs)
    (h : s.Gapless) (hr : s.Regular ip)
    (hoff : i < n → off.toNat + min (n - i) maxChunk ≤ MAXFILE * BSIZE → s.Adjoins ip off.toNat) :
    wp (pfilewriteLoop ip addr n off fuel i) (fun _ t => Fs.Grown s t ip) (fun _ => True) s := by
  induction fuel generalizing i s with
  | zero => exact .refl h ip
  | succ fuel ih =>
    unfold pfilewriteLoop
    split
    · next hlt =>
      simp only [wp_bind]
      refine (wp_writeChunk_grown h hr (by omega) fun _ hle => hoff hlt hle).post fun r t ht => ?_
      obtain ⟨hgrown, hresult⟩ := ht
      split
      · exact hgrown
      · next hnonneg =>
        obtain ⟨-, hle, -⟩ := hresult.resolve_left fun hr => hnonneg (hr ▸ by decide)
        split
        · trivial
        · refine (ih _ t hgrown.gapless (hgrown.regular ip hr) fun _ _ => ?_).post fun _ u hu => hgrown.trans hu
          exact (hoff hlt hle).mono hgrown.length
    · exact .refl h ip

/-- Each chunk of `filewrite` but the first starts at the end of the one before. -/
theorem wp_filewriteLoop_grown (addr : Bytes) (n : Nat) (hn : n < 2 ^ 32) (fuel i : Nat) (f : OpenFile) (s : Fs)
    (h : s.Gapless) (hr : s.Regular f.ip)
    (hoff : i < n → f.off.toNat + min (n - i) maxChunk ≤ MAXFILE * BSIZE → s.Adjoins f.ip f.off.toNat) :
    wp (filewriteLoop addr n fuel i f) (fun _ t => Fs.Grown s t f.ip) (fun _ => True) s := by
  induction fuel generalizing i f s with
  | zero => exact .refl h f.ip
  | succ fuel ih =>
    unfold filewriteLoop
    split
    · next hlt =>
      simp only [wp_bind]
      refine (wp_writeChunk_grown h hr (by omega) fun _ hle => hoff hlt hle).post fun r t ht => ?_
      obtain ⟨hgrown, hresult⟩ := ht
      split
      · exact hgrown
      · next hnonneg =>
        obtain ⟨hrn, hle, hlength⟩ := hresult.resolve_left fun hr => hnonneg (hr ▸ by decide)
        split
        · trivial
        · have hpos : 0 < min (n - i) maxChunk := Nat.lt_min.mpr ⟨Nat.sub_pos_of_lt hlt, maxChunk_pos⟩
          have hmax : MAXFILE * BSIZE < 2 ^ 32 := by decide
          have hmoved : (f.off + UInt32.ofInt r).toNat = f.off.toNat + min (n - i) maxChunk := by
            rw [hrn, ofInt_natCast, UInt32.toNat_add, UInt32.toNat_ofNat']
            omega
          have hgt : r > 0 := hrn ▸ Int.natCast_pos.mpr hpos
          rw [if_pos hgt]
          refine (ih _ { f with off := f.off + UInt32.ofInt r } t hgrown.gapless (hgrown.regular f.ip hr)
            fun _ _ => ?_).post fun _ u hu => hgrown.trans hu
          exact Fs.adjoins_of_le (hmoved ▸ hlength hpos)
    · exact .refl h f.ip

end Loops

/-- `write` and `pwrite` of a regular file. -/
inductive WriteCall where
  | write (f : OpenFile) (addr : Bytes) (n : Int32)
  | pwrite (f : OpenFile) (addr : Bytes) (n off : Int32)

namespace WriteCall

def file : WriteCall → OpenFile
  | .write f _ _ => f
  | .pwrite f _ _ _ => f

/-- Where the first chunk goes. -/
def off : WriteCall → Nat
  | .write f _ _ => f.off.toNat
  | .pwrite _ _ _ off => off.toUInt32.toNat

/-- How many bytes are to be written. -/
def count : WriteCall → Nat
  | .write _ _ n => n.toInt.toNat
  | .pwrite _ _ n _ => n.toInt.toNat

def exec : WriteCall → FS Int
  | .write f addr n => do return (← filewrite f addr n).1
  | .pwrite f addr n off => pfilewrite f addr n off

/-- The call writes nothing, or does not start behind the last block of its file. -/
def LeavesNoGap (s : Fs) (c : WriteCall) : Prop :=
  c.file.writable = false ∨ c.count = 0 ∨ MAXFILE * BSIZE < c.off + min c.count maxChunk ∨
    s.Adjoins c.file.ip c.off

theorem wp_exec {s : Fs} (c : WriteCall) (h : s.Gapless) (hr : s.Regular c.file.ip) (htype : c.file.type = .inode)
    (hok : LeavesNoGap s c) : wp c.exec (fun _ t => Fs.Grown s t c.file.ip) (fun _ => True) s := by
  have hn : ∀ n : Int32, n.toInt.toNat < 2 ^ 32 := fun n => by
    have hlt := n.toInt_lt
    omega
  have hoff : c.file.writable = true → ∀ {count off}, count = c.count → off = c.off → 0 < count →
      off + min (count - 0) maxChunk ≤ MAXFILE * BSIZE → s.Adjoins c.file.ip off := by
    rintro hw _ _ rfl rfl hpos hle
    rw [Nat.sub_zero] at hle
    rcases hok with hro | h0 | hbig | hok
    · rw [hw] at hro
      cases hro
    · exact absurd h0 hpos.ne'
    · exact absurd hle (Nat.not_le.mpr hbig)
    · exact hok
  cases c with
  | write f addr n =>
    simp only [exec, filewrite, wp_bind]
    split
    · exact .refl h f.ip
    case isFalse hw =>
      rw [show f.type = .inode from htype]
      simp only [wp_bind]
      exact (wp_filewriteLoop_grown addr _ (hn n) _ 0 f s h hr (hoff (by simpa [file] using hw) rfl rfl)).post
        fun _ _ ht => ht
  | pwrite f addr n off =>
    simp only [exec, pfilewrite]
    split
    · exact .refl h f.ip
    case isFalse hw =>
      rw [show f.type = .inode from htype]
      simp only [wp_bind]
      exact (wp_pfilewriteLoop_grown addr _ (hn n) _ _ 0 s h hr (hoff (by simpa [file] using hw) rfl rfl)).post
        fun _ _ ht => ht

end WriteCall

/-- The states that calls of `write` and `pwrite` lead to, if each meets `Ok`. -/
inductive WriteRun (Ok : Fs → WriteCall → Prop) (s : Fs) : Fs → Prop where
  | refl : WriteRun Ok s s
  | step {t u : Fs} {r : Int} (h : WriteRun Ok s t) (c : WriteCall) (hr : t.Regular c.file.ip)
      (htype : c.file.type = .inode) (hok : Ok t c) (hrun : c.exec t = .ok (r, u)) : WriteRun Ok s u

theorem WriteRun.gapless {s t : Fs} (h : WriteRun WriteCall.LeavesNoGap s t) (hs : s.Gapless) : t.Gapless := by
  induction h with
  | refl => exact hs
  | step _ c hr htype hok hrun ih => exact ((c.wp_exec ih hr htype hok).of_run hrun).gapless

/-! ## Reads -/

/-- No block of the disk, no inode and no part of the log is changed, and nothing is passed
    to `log_write`. -/
structure Fs.Untouched (s t : Fs) : Prop where
  same : Fs.Same s t
  log : t.log = s.log

section Reads

variable {s : Fs} {f : OpenFile}

theorem Fs.Gapless.wp_lockedRead (h : s.Gapless) (hr : s.Regular f.ip) (off n : UInt32)
    {Q : Int × List UInt8 → Fs → Prop} (hQ : ∀ r t, s.Untouched t → Q r t) :
    wp (ilock f.ip) (fun _ t => wp (readi f.ip off n)
      (fun r u => wp (iunlock f.ip) (fun _ v => Q r v) (fun _ => False) u) (fun _ => False) t) (fun _ => False) s := by
  have htyped := hr.typed h.inv
  refine wp_lockedRead_of_mapped h.inv hr.1 htyped (h.unlocked f.ip hr.1) (by rw [hr.2]; decide)
    ((h.solid f.ip hr).mapped _ _) (hQ _ _ ⟨?_, rfl⟩)
  have hlock := h.inv.lockInode hr.1 htyped
  exact (Fs.Same.lockInode h.inv hr.1).trans (.unlockInode hlock f.ip)

theorem Fs.Gapless.wp_fileread (h : s.Gapless) (hr : s.Regular f.ip) (htype : f.type = .inode) (n : Int32) :
    wp (fileread f n) (fun _ t => s.Untouched t) (fun _ => False) s := by
  unfold fileread
  split
  · exact ⟨.refl s, rfl⟩
  · rw [htype]
    simp only [wp_bind, wp_pure]
    exact h.wp_lockedRead hr f.off n.toUInt32 fun _ _ ht => ht

theorem Fs.Gapless.wp_pfileread (h : s.Gapless) (hr : s.Regular f.ip) (htype : f.type = .inode) (n off : Int32) :
    wp (pfileread f n off) (fun _ t => s.Untouched t) (fun _ => False) s := by
  unfold pfileread
  split
  · exact ⟨.refl s, rfl⟩
  · rw [htype]
    simp only [wp_bind, wp_pure]
    exact h.wp_lockedRead hr off.toUInt32 n.toUInt32 fun _ _ ht => ht

end Reads

/-- After writes none of which starts behind the last block of its file, every read of a
    regular file returns and leaves everything as it is. -/
theorem reads_are_pure (s t : Fs) (hs : s.Gapless) (h : WriteRun WriteCall.LeavesNoGap s t) (f : OpenFile)
    (hr : t.Regular f.ip) (htype : f.type = .inode) (n off : Int32) :
    (∃ r u, fileread f n t = .ok (r, u) ∧ t.Untouched u) ∧
    ∃ r u, pfileread f n off t = .ok (r, u) ∧ t.Untouched u :=
  ⟨((h.gapless hs).wp_fileread hr htype n).run_ok, ((h.gapless hs).wp_pfileread hr htype n off).run_ok⟩

/-! ## One empty file -/

theorem image_gapless : (image emptyFile).Gapless := by
  refine ⟨image_inv rfl (by decide) (Nat.zero_le _), rfl, fun ip hip => ?_, fun ip hr bn hbn => ?_⟩
  · obtain rfl := image.eq_zero_of_ref emptyFile hip
    rfl
  · obtain rfl := image.eq_zero_of_ref emptyFile hr.1
    rw [show ((image emptyFile).icache 0).inum = 1 from rfl, image.view_eq emptyFile (by decide)] at hbn
    exact absurd hbn (Nat.not_lt_zero _)

theorem image_regular : (image emptyFile).Regular 0 :=
  (@writeRequest_image 0 0 (by decide) (by decide) (by decide)).regular

/-- A write at the start of the file, and reads at any place. -/
theorem reads_are_pure_after_write : ∃ t, WriteRun WriteCall.LeavesNoGap (image emptyFile) t ∧
    t.Regular 0 ∧ ∀ n off, ∃ r u, pfileread openFile n off t = .ok (r, u) ∧ t.Untouched u := by
  let c : WriteCall := .write openFile numbered 700
  have hrun : c.exec.returns (image emptyFile) (fun r _ => r == 700) = true := by
    decide +kernel
  have hs := image_gapless
  have hr := image_regular
  generalize image emptyFile = s at *
  obtain ⟨r, t, hok, -⟩ := exists_of_returns hrun
  have hgap : WriteCall.LeavesNoGap s c := .inr (.inr (.inr (Fs.adjoins_of_le (Nat.zero_le _))))
  have hreg := ((c.wp_exec hs hr rfl hgap).of_run hok).regular 0 hr
  have hreach : WriteRun WriteCall.LeavesNoGap s t := .step .refl c hr rfl hgap hok
  exact ⟨t, hreach, hreg, fun n off => (reads_are_pure s t hs hreach openFile hreg rfl n off).2⟩

/-- Five bytes at 600 in an empty file leave no block for its first 512 bytes, and a read
    of one of those calls `balloc`. -/
theorem read_of_hole_panics : (image emptyFile).Gapless ∧ (image emptyFile).Regular 0 ∧ ∃ t,
    pfilewrite openFile numbered 5 600 (image emptyFile) = .ok (5, t) ∧
    pfileread openFile 1 0 t = .error .logWriteOutsideOfTrans := by
  refine ⟨image_gapless, image_regular, ?_⟩
  have hrun : (pfilewrite openFile numbered 5 600).returns (image emptyFile) (fun r t =>
      r == 5 && (pfileread openFile 1 0).stopsWith t .logWriteOutsideOfTrans) = true := by
    decide +kernel
  generalize image emptyFile = s at *
  obtain ⟨r, t, hok, hr⟩ := exists_of_returns hrun
  simp only [Bool.and_eq_true, beq_iff_eq] at hr
  obtain ⟨rfl, hstop⟩ := hr
  exact ⟨t, hok, eq_error_of_stopsWith hstop⟩

end Xv6
