-- SUMMARY: Cached inodes agree with their copies on disk, as long as no write fills a hole.
import Xv6.FileSystem.DirectoryMap
import Xv6.FileSystem.PureReads
import Xv6.FileSystem.SysCalls

/-! # Write-through

`bmap` stores the addresses of new blocks in the inode in memory; the copy on disk is
brought up to date by `iupdate`, which `writei` calls only if the file grows. Every
other system call writes its changes through. So inodes in memory agree with their
copies unless a write below the end of a file needs a new entry of `addrs`.
-/

namespace Xv6

open Prog Fs

variable {s t u : Fs} {o : Own} {ip : InodePtr}

/-! ## Chunks -/

/-- A `writei` that leaves the inode and its copy the same: the file grows, or every
    entry of `addrs` that is needed is there. -/
def Fs.Copied (s : Fs) (i off n : Nat) : Prop := s.Grows i off n ∨ Wrote.Slots s i off n

/-- The same for the chunks that `filewrite` makes of `n` bytes at `off`. -/
def Fs.Streamed (s : Fs) (i off n : Nat) : Prop :=
  ∀ k, k * maxChunk < n → s.Copied i (off + k * maxChunk) (min (n - k * maxChunk) maxChunk)

theorem Fs.Copied.congr {i off n : Nat} (h : s.Copied i off n) (hview : t.view i = s.view i) : t.Copied i off n := by
  unfold Copied Grows Wrote.Slots at *
  rwa [hview]

theorem Fs.Streamed.first {i off n : Nat} (h : s.Streamed i off n) (hn : 0 < n) :
    s.Copied i off (min n maxChunk) := by
  simpa using h 0 (by simpa using hn)

/-- What is left to write after the first chunk. -/
theorem Fs.Streamed.rest {i off n : Nat} (h : s.Streamed i off n)
    (hgrew : s.Grows i off (min n maxChunk) → (t.view i).size.toNat = off + min n maxChunk)
    (hstayed : ¬ s.Grows i off (min n maxChunk) → t.view i = s.view i) :
    t.Streamed i (off + min n maxChunk) (n - min n maxChunk) := by
  intro k hk
  have hfull : min n maxChunk = maxChunk := by omega
  rw [hfull] at hgrew hstayed hk ⊢
  have hnext := h (k + 1) (by rw [Nat.succ_mul]; omega)
  rw [Nat.succ_mul, Nat.add_comm (k * maxChunk), ← Nat.add_assoc, Nat.sub_add_eq] at hnext
  by_cases hg : s.Grows i off maxChunk
  · left
    refine ⟨Nat.lt_min.mpr ⟨by omega, maxChunk_pos⟩, ?_⟩
    rw [hgrew hg]
    have hpos : 0 < min (n - maxChunk - k * maxChunk) maxChunk := Nat.lt_min.mpr ⟨by omega, maxChunk_pos⟩
    omega
  · exact hnext.congr (hstayed hg)

theorem Fs.Wrote.Slots.mono {i off n m : Nat} (h : Wrote.Slots s i off n) (hm : m ≤ n) : Wrote.Slots s i off m :=
  fun bn hbn => h bn ⟨hbn.1, hbn.2.trans_le (Nat.add_le_add_left hm off)⟩

section Chunk

variable {src : Bytes} {i off n : Nat}

theorem Fs.Wrote.takes (hw : Wrote s t ip i off n src) (h : s.Tidy) (hip : s.Caches ip i)
    (htype : (s.icache ip).type ≠ T_DIR) (hcopy : s.Copied i off n) : Takes s t o o :=
  ⟨hw.tidy h hip fun hd => absurd hd htype, hw.keeps.sb, fun jp => by rw [hw.ref],
    fun _ hP => hw.agree h.toInv hip hP fun _ => hcopy, False.elim, False.elim⟩

/-- After a write every entry of `addrs` that it needs is there. -/
theorem Fs.Wrote.slots (hw : Wrote s t ip i off n src) (hip : s.Caches ip i) (hn : 0 < n) :
    Wrote.Slots t i off n := by
  intro bn hbn
  obtain ⟨p, hle, hlt, rfl⟩ := hbn.exists_pos hn
  exact addrs_ne_zero (hw.inv.allocated (hw.caches.mpr hip)) (hw.mapped p hle hlt)

theorem Fs.Wrote.view_stayed (hw : Wrote s t ip i off n src) (h : s.Inv) (hip : s.Caches ip i)
    (hcopy : s.Copied i off n) (hg : ¬ s.Grows i off n) : t.view i = s.view i := by
  have hsame := (hw.stayed hg).2 (hcopy.resolve_left hg)
  rw [view_of_caches hw.inv.cacheInj (hw.caches.mpr hip), view_of_caches h.cacheInj hip, hsame]

/-- `t` is `s` after a chunk of `n` bytes at `off` was written to the file of `ip`. -/
structure Fs.Chunked (s t : Fs) (ip : InodePtr) (off n : Nat) : Prop where
  fits : off + n ≤ MAXFILE * BSIZE
  slots : Wrote.Slots t (s.icache ip).inum off n
  grew : s.Grows (s.icache ip).inum off n → (t.view (s.icache ip).inum).size.toNat = off + n
  stayed : ¬ s.Grows (s.icache ip).inum off n → t.view (s.icache ip).inum = s.view (s.icache ip).inum

end Chunk

/-- The caller may write to `ip`, which is no directory. -/
structure Fs.Open (s : Fs) (o : Own) (ip : InodePtr) : Prop where
  tidy : s.Tidy
  covered : s.Covered o
  own : 0 < o ip
  type : (s.view (s.icache ip).inum).type ≠ T_DIR

/-- `t` is `s` after a part of a write to `ip`. -/
structure Fs.Passed (s t : Fs) (o : Own) (ip : InodePtr) : Prop where
  takes : Takes s t o o
  inum : (t.icache ip).inum = (s.icache ip).inum
  type : (t.view (s.icache ip).inum).type = (s.view (s.icache ip).inum).type

theorem Fs.Passed.refl (h : s.Tidy) : Passed s s o ip := ⟨.refl h, rfl, rfl⟩

theorem Fs.Passed.trans (h : Passed s t o ip) (h' : Passed t u o ip) : Passed s u o ip :=
  ⟨h.takes.trans h'.takes, h'.inum.trans h.inum, by rw [← h.inum, h'.type, h.inum, h.type]⟩

theorem Fs.Passed.open (h : Passed s t o ip) (hs : s.Open o ip) : t.Open o ip :=
  ⟨h.takes.tidy, h.takes.covered hs.covered, hs.own, by rw [h.inum, h.type]; exact hs.type⟩

theorem Fs.Takes.enter (h : s.Tidy) (hip : s.Held ip) (htyped : s.Typed ip) : Takes s (s.enter ip) o o := by
  have hlog : Takes s (s.setLog s.log.start) o o := .setLog h rfl
  exact hlog.trans (.lockInode hlog.tidy hip htyped)

theorem Fs.Takes.leave (h : s.Tidy) (ip : InodePtr) : Takes s (s.leave ip) o o := by
  have hunlock : Takes s (s.unlockInode ip) o o := .unlockInode h ip
  exact hunlock.trans (.setLog hunlock.tidy rfl)

/-- A bracket in which nothing is written to the inode but what `w` has. -/
theorem Fs.Passed.bracket {w : Fs} (h : s.Open o ip) (htyped : s.Typed ip) (hw : Takes (s.enter ip) w o o)
    (hkeeps : Keeps (s.enter ip) w)
    (htype : (w.view (s.icache ip).inum).type = ((s.enter ip).view (s.icache ip).inum).type) :
    Passed s (w.leave ip) o ip := by
  have hip : s.Held ip := h.covered.held h.own
  have hend := same_leave hw.tidy.toInv ip
  refine ⟨(Takes.enter h.tidy hip htyped |>.trans hw).trans (Takes.leave hw.tidy ip),
    leave_field Inode.fixed_inum hkeeps ip, ?_⟩
  rw [hend.view, htype, (same_enter h.tidy.toInv hip).view]

theorem runs_writeChunk {src : Bytes} {off : UInt32} {n : Nat} (h : s.Open o ip) (hn : 0 < n) (hlt : n < 2 ^ 32)
    (hcopy : (s.view (s.icache ip).inum).type = T_DEV ∨ s.Copied (s.icache ip).inum off.toNat n) :
    Runs (writeChunk ip src off n) s fun r t => Passed s t o ip ∧
      ((s.view (s.icache ip).inum).type = T_DEV ∨ r = -1 ∨ r = n ∧ Chunked s t ip off.toNat n) := by
  have hip : s.Held ip := h.covered.held h.own
  have hinv := h.tidy.toInv
  have hsame := same_enter hinv hip
  have hstay : s.Typed ip → Passed s ((s.enter ip).leave ip) o ip := fun htyped =>
    .bracket h htyped (.refl (Takes.enter (o := o) h.tidy hip htyped).tidy) (.refl _) rfl
  refine wp_writeChunk mayStop_true hinv hip hlt (fun htyped hdev _ => ⟨hstay htyped, .inl hdev⟩)
    (fun htyped _ => ⟨hstay htyped, .inr (.inl rfl)⟩) fun htyped hdev hle w hw => ?_
  replace hcopy := hcopy.resolve_left hdev
  have henter : Takes s (s.enter ip) o o := .enter h.tidy hip htyped
  have hcaches := enter_caches hip
  have htype : ((s.enter ip).icache ip).type ≠ T_DIR := by
    have hview := view_of_caches henter.tidy.cacheInj hcaches
    rw [show ((s.enter ip).icache ip).type = ((s.enter ip).view (s.icache ip).inum).type by rw [hview], hsame.view]
    exact h.type
  have hcopy' : (s.enter ip).Copied (s.icache ip).inum off.toNat n := hcopy.congr (hsame.view _)
  have hend := same_leave hw.inv ip
  have hgrows : (s.enter ip).Grows (s.icache ip).inum off.toNat n ↔ s.Grows (s.icache ip).inum off.toNat n := by
    unfold Grows
    rw [hsame.view]
  refine ⟨.bracket h htyped (hw.takes henter.tidy hcaches htype hcopy') hw.keeps hw.type,
    .inr (.inr ⟨rfl, hle, ?_, fun hg => ?_, fun hg => ?_⟩)⟩
  · have hslots := hw.slots hcaches hn
    unfold Wrote.Slots at hslots ⊢
    rwa [hend.view]
  · rw [hend.view, hw.size, if_pos hn, hsame.view, max_eq_right hg.2.le]
  · rw [hend.view, hw.view_stayed henter.tidy.toInv hcaches hcopy' fun hg' => hg (hgrows.mp hg'), hsame.view]

/-! ## Writes -/

/-- All chunks of `pfilewrite` go to the same place, and none is longer than the first. -/
theorem runs_pfilewriteLoop (addr : Bytes) (n : Nat) (hn : n < 2 ^ 32) (off : UInt32) (fuel i : Nat) (s : Fs)
    (h : s.Open o ip) (hcopy : i < n → (s.view (s.icache ip).inum).type = T_DEV ∨
      s.Copied (s.icache ip).inum off.toNat (min (n - i) maxChunk)) :
    Runs (pfilewriteLoop ip addr n off fuel i) s fun _ t => Passed s t o ip := by
  induction fuel generalizing i s with
  | zero => exact .refl h.tidy
  | succ fuel ih =>
    unfold pfilewriteLoop
    split
    · next hlt =>
      have hpos : 0 < min (n - i) maxChunk := Nat.lt_min.mpr ⟨Nat.sub_pos_of_lt hlt, maxChunk_pos⟩
      simp only [wp_bind]
      refine (runs_writeChunk h hpos (by omega) (hcopy hlt)).post fun r t ht => ?_
      obtain ⟨hpass, hresult⟩ := ht
      split
      · exact hpass
      · next hnonneg =>
        split
        · trivial
        · refine (ih _ t (hpass.open h) fun _ => ?_).post fun _ u hu => hpass.trans hu
          rw [hpass.inum, hpass.type]
          rcases hresult with hdev | rfl | ⟨-, hchunk⟩
          · exact .inl hdev
          · exact absurd (by decide) hnonneg
          · exact .inr (.inr (hchunk.slots.mono (by omega)))
    · exact .refl h.tidy

/-- Each chunk of `filewrite` but the first starts at the end of the one before. -/
theorem runs_filewriteLoop (addr : Bytes) (n : Nat) (hn : n < 2 ^ 32) (fuel i : Nat) (f : OpenFile) (s : Fs)
    (h : s.Open o f.ip) (hcopy : (s.view (s.icache f.ip).inum).type = T_DEV ∨
      s.Streamed (s.icache f.ip).inum f.off.toNat (n - i)) :
    Runs (filewriteLoop addr n fuel i f) s fun _ t => Passed s t o f.ip := by
  induction fuel generalizing i f s with
  | zero => exact .refl h.tidy
  | succ fuel ih =>
    unfold filewriteLoop
    split
    · next hlt =>
      have hleft : 0 < n - i := Nat.sub_pos_of_lt hlt
      have hpos : 0 < min (n - i) maxChunk := Nat.lt_min.mpr ⟨hleft, maxChunk_pos⟩
      simp only [wp_bind]
      refine (runs_writeChunk h hpos (by omega) (hcopy.imp_right (·.first hleft))).post fun r t ht => ?_
      obtain ⟨hpass, hresult⟩ := ht
      split
      · exact hpass
      · next hnonneg =>
        split
        · trivial
        · next hfull =>
          have hfile : ∀ g : OpenFile, g.ip = f.ip → (s.view (s.icache f.ip).inum).type = T_DEV ∨
              t.Streamed (s.icache f.ip).inum g.off.toNat (n - (i + min (n - i) maxChunk)) →
              Runs (filewriteLoop addr n fuel (i + min (n - i) maxChunk) g) t fun _ u => Passed s u o f.ip := by
            intro g hg hrest
            have hopen : t.Open o g.ip := hg ▸ hpass.open h
            refine (ih _ g t hopen ?_).post fun _ u hu => hpass.trans (hg ▸ hu)
            rw [hg, hpass.inum, hpass.type]
            exact hrest
          have hgt : r > 0 := by omega
          rw [if_pos hgt]
          refine hfile { f with off := f.off + UInt32.ofInt r } rfl ?_
          rcases hcopy with hdev | hcopy
          · exact .inl hdev
          rcases hresult with hdev | rfl | ⟨hr, hchunk⟩
          · exact .inl hdev
          · exact absurd (by decide) hnonneg
          · right
            have hmax : MAXFILE * BSIZE < 2 ^ 32 := by decide
            have hfits := hchunk.fits
            have hmoved : (f.off + UInt32.ofInt r).toNat = f.off.toNat + min (n - i) maxChunk := by
              rw [hr, ofInt_natCast, UInt32.toNat_add, UInt32.toNat_ofNat']
              omega
            have hrest := hcopy.rest hchunk.grew hchunk.stayed
            rw [Nat.sub_add_eq]
            exact hmoved ▸ hrest
    · exact .refl h.tidy

/-- The call does not touch an inode, or leaves its copy on disk the same as it. -/
def WriteCall.WritesThrough (s : Fs) : WriteCall → Prop
  | .write f _ n => f.writable = false ∨ f.type ≠ .inode ∨ (s.view (s.icache f.ip).inum).type = T_DEV ∨
      s.Streamed (s.icache f.ip).inum f.off.toNat n.toInt.toNat
  | .pwrite f _ n off => f.writable = false ∨ f.type ≠ .inode ∨ (s.view (s.icache f.ip).inum).type = T_DEV ∨
      (0 < n.toInt → s.Copied (s.icache f.ip).inum off.toUInt32.toNat (min n.toInt.toNat maxChunk))

theorem WriteCall.runs_exec (c : WriteCall) (h : c.file.type = .inode → c.file.writable = true → s.Open o c.file.ip)
    (htidy : s.Tidy) (hcopy : c.WritesThrough s) : Runs c.exec s fun _ t => Takes s t o o := by
  have hn : ∀ n : Int32, n.toInt.toNat < 2 ^ 32 := fun n => by
    have hlt := n.toInt_lt
    omega
  cases c with
  | write f addr n =>
    simp only [exec, filewrite, wp_bind]
    split
    · exact .refl htidy
    case isFalse hw =>
      have hwritable : f.writable = true := by simpa using hw
      cases htype : f.type with
      | inode =>
        simp only [wp_bind]
        have hopen := h htype hwritable
        refine (runs_filewriteLoop addr _ (hn n) _ 0 f s hopen ?_).post fun _ _ ht => ht.takes
        exact (hcopy.resolve_left hw).resolve_left (absurd htype)
      | pipe => exact .refl htidy
      | none => trivial
  | pwrite f addr n off =>
    simp only [exec, pfilewrite]
    split
    · exact .refl htidy
    case isFalse hw =>
      have hwritable : f.writable = true := by simpa using hw
      cases htype : f.type with
      | inode =>
        simp only [wp_bind]
        have hopen := h htype hwritable
        refine (runs_pfilewriteLoop addr _ (hn n) _ _ 0 s hopen fun hpos => ?_).post fun _ _ ht => ht.takes
        refine ((hcopy.resolve_left hw).resolve_left (absurd htype)).imp_right fun hcopy => ?_
        exact hcopy (by omega)
      | pipe => exact .refl htidy
      | none => trivial

/-! ## Runs -/

/-- The calls that change files. `open` with `O_CREATE`, `mkdir` and `mknod` create. -/
inductive FsCall where
  | sysOpen (cwd : InodePtr) (path : List UInt8) (omode : UInt32) (room : Bool)
  | sysMake (cwd : InodePtr) (path : List UInt8) (type major minor : Int16)
  | sysLink (cwd : InodePtr) (old new : List UInt8)
  | sysUnlink (cwd : InodePtr) (path : List UInt8)
  | sysChdir (cwd : InodePtr) (path : List UInt8)
  | write (c : WriteCall)
  | fileclose (f : OpenFile)

/-- The call returns in `t`. `o` are the references of all processes before it, from open
    files and current directories, `o'` those afterwards. -/
inductive FsCall.Does (s t : Fs) (o : Own) : FsCall → (o' : Own) → Prop where
  | sysOpen {cwd : InodePtr} {path : List UInt8} {omode : UInt32} {room : Bool} {r : Option InodePtr}
      (hcwd : 0 < o cwd) (hrun : Xv6.sysOpen cwd path omode room s = .ok (r, t)) :
      Does s t o (.sysOpen cwd path omode room) (o.gain r)
  | sysMake {cwd : InodePtr} {path : List UInt8} {type major minor : Int16} {r : Int} (hcwd : 0 < o cwd)
      (hrun : Xv6.sysMake cwd path type major minor s = .ok (r, t)) : Does s t o (.sysMake cwd path type major minor) o
  | sysLink {cwd : InodePtr} {old new : List UInt8} {r : Int} (hcwd : 0 < o cwd)
      (hrun : Xv6.sysLink cwd old new s = .ok (r, t)) : Does s t o (.sysLink cwd old new) o
  | sysUnlink {cwd : InodePtr} {path : List UInt8} {r : Int} (hcwd : 0 < o cwd)
      (hrun : Xv6.sysUnlink cwd path s = .ok (r, t)) : Does s t o (.sysUnlink cwd path) o
  | sysChdir {cwd : InodePtr} {path : List UInt8} {r : Int × InodePtr} {rest : Own} (hown : o = rest.hold cwd)
      (hrun : Xv6.sysChdir cwd path s = .ok (r, t)) : Does s t o (.sysChdir cwd path) (rest.hold r.2)
  -- `sys_open` opens no directory for writing
  | write {c : WriteCall} {r : Int} (hfile : c.file.type = .inode → c.file.writable = true →
      0 < o c.file.ip ∧ (s.view (s.icache c.file.ip).inum).type ≠ T_DIR)
      (hrun : c.exec s = .ok (r, t)) : Does s t o (.write c) o
  | lastClose {f g : OpenFile} {rest : Own} (htype : f.type = .inode) (href : f.ref = 1) (hown : o = rest.hold f.ip)
      (hrun : Xv6.fileclose f s = .ok (g, t)) : Does s t o (.fileclose f) rest
  | otherClose {f g : OpenFile} (hf : ¬ (f.type = .inode ∧ f.ref = 1)) (hrun : Xv6.fileclose f s = .ok (g, t)) :
      Does s t o (.fileclose f) o

/-- A file system between calls, with the references `o` of all processes. -/
structure Fs.Standing (s : Fs) (o : Own) : Prop where
  tidy : s.Tidy
  covered : s.Covered o
  agree : s.Agree fun _ => True

theorem Fs.Takes.standing {o' : Own} (h : Takes s t o o') (hs : s.Standing o) : t.Standing o' :=
  ⟨h.tidy, h.covered hs.covered, h.agree _ hs.agree⟩

theorem fileclose_other {f g : OpenFile} (hf : ¬ (f.type = .inode ∧ f.ref = 1))
    (hrun : fileclose f s = .ok (g, t)) : t = s := by
  have hrule : Runs (fileclose f) s fun _ t => t = s := by
    unfold fileclose
    split
    · trivial
    · split
      · rfl
      · cases htype : f.type with
        | inode => exact absurd ⟨htype, by omega⟩ hf
        | pipe => rfl
        | none => rfl
  exact hrule.of_run hrun

/-- The condition on a call: writes write through. -/
def FsCall.WritesThrough (s : Fs) : FsCall → Prop
  | .write c => c.WritesThrough s
  | _ => True

theorem FsCall.Does.takes {c : FsCall} {o' : Own} (h : c.Does s t o o') (hs : s.Standing o)
    (hc : c.WritesThrough s) : Takes s t o o' := by
  cases h with
  | @sysOpen cwd path omode room r hcwd hrun =>
    exact (runs_sysOpen hs.tidy hs.covered hcwd path omode room).of_run hrun
  | @sysMake cwd path type major minor r hcwd hrun =>
    exact (runs_sysMake hs.tidy hs.covered hcwd path type major minor).of_run hrun
  | @sysLink cwd old new r hcwd hrun => exact (runs_sysLink hs.tidy hs.covered hcwd old new).of_run hrun
  | @sysUnlink cwd path r hcwd hrun => exact (runs_sysUnlink hs.tidy hs.covered hcwd path).of_run hrun
  | @sysChdir cwd path r rest hown hrun =>
    subst hown
    exact (runs_sysChdir hs.tidy hs.covered path).of_run hrun
  | @write c r hfile hrun =>
    refine (c.runs_exec (o := o) (fun htype hw => ?_) hs.tidy hc).of_run hrun
    exact ⟨hs.tidy, hs.covered, (hfile htype hw).1, (hfile htype hw).2⟩
  | @lastClose f g rest htype href hown hrun =>
    subst hown
    exact (runs_fileclose hs.tidy hs.covered htype href).of_run hrun
  | @otherClose f g hf hrun =>
    obtain rfl := fileclose_other hf hrun
    exact .refl hs.tidy

theorem FsCall.Does.standing {c : FsCall} {o' : Own} (h : c.Does s t o o') (hs : s.Standing o)
    (hc : c.WritesThrough s) : t.Standing o' := (h.takes hs hc).standing hs

/-- The states that calls lead to, if each meets `Ok`. -/
inductive FsRun (Ok : Fs → FsCall → Prop) (s : Fs) (o : Own) : Fs → Own → Prop where
  | refl : FsRun Ok s o s o
  | step {t u : Fs} {o₁ o₂ : Own} (h : FsRun Ok s o t o₁) (c : FsCall) (hok : Ok t c) (hdoes : c.Does t u o₁ o₂) :
      FsRun Ok s o u o₂

theorem FsRun.standing {o' : Own} (h : FsRun (fun s c => c.WritesThrough s) s o t o') (hs : s.Standing o) :
    t.Standing o' := by
  induction h with
  | refl => exact hs
  | step _ c hok hdoes ih => exact hdoes.standing ih hok

/-! ## Reloading -/

/-- `ilock(iget(n))`. -/
def reload (n : Nat) : FS InodePtr := do
  let ip ← iget n
  ilock ip
  pure ip

/-- A cache entry that agrees with its copy can go. -/
theorem Fs.Standing.release_same (h : s.Standing o) (ip : InodePtr) : Same s (s.release ip) := by
  refine ⟨rfl, rfl, fun j => ?_⟩
  rw [h.tidy.toInv.release_view]
  split
  · next hlast =>
    rw [view_of_caches h.tidy.cacheInj hlast.1, ← h.agree ip ⟨hlast.1.1, hlast.1.2.1⟩ trivial, hlast.1.2.2]
  · rfl

theorem Fs.Standing.runs_reload {n : Nat} (h : s.Standing o) (hip : s.Held ip) (hn : n < s.sb.ninodes) :
    Runs (reload n) (s.release ip) fun _ t => t.file = s.file := by
  have hdrop : Takes s (s.release ip) (Own.none.hold ip) Own.none := .release h.tidy
  have hcov : (s.release ip).Covered Own.none := hdrop.covered fun jp => by
    by_cases hj : jp = ip
    · rw [hj, Own.hold_same]
      exact hip
    · rw [Own.hold_ne _ _ hj]
      exact (Int.natCast_nonneg (o jp)).trans (h.covered jp)
  simp only [reload, wp_bind, wp_pure]
  refine wp_iget_got False hdrop.tidy hcov hn (fun _ _ => trivial) fun jp t hgot => ?_
  have hheld := (hgot.step.covered hcov).held (Own.none.hold_pos jp)
  refine wp_ilock hgot.step.tidy.sbWf hheld (hgot.step.tidy.cacheRange jp hheld) (fun _ => trivial) (fun _ => trivial)
    fun _ => ?_
  have hlock : Same t (t.lockInode jp) := .lockInode hgot.step.tidy.toInv hheld
  exact (((h.release_same ip).trans hgot.same).trans hlock).file

/-- If no write fills a hole of `addrs` below the end of its file, every inode in memory is
    the same as its copy on disk after each call, and dropping a cache entry and reading
    an inode again changes no file. -/
theorem inodes_written_through (s t : Fs) (o o' : Own) (hs : s.Standing o)
    (h : FsRun (fun s c => c.WritesThrough s) s o t o') :
    (∀ ip, t.Loaded ip → t.dinode (t.icache ip).inum = (t.icache ip).toDinode) ∧
    ∀ ip n, t.Held ip → (t.icache ip).ref = 1 → n < t.sb.ninodes →
      Runs (reload n) (t.release ip) fun _ u => u.file = t.file :=
  have ht := h.standing hs
  ⟨fun ip hip => ht.agree ip hip trivial, fun _ _ hip _ hn => ht.runs_reload hip hn⟩

/-! ## A new file -/

theorem image_standing : (image emptyDirectory).Standing (Own.none.hold 0) := by
  refine ⟨image_emptyDirectory_tidy, fun jp => ?_, image_emptyDirectory_agree _⟩
  by_cases hj : jp = 0
  · subst hj
    exact le_rfl
  · rw [Own.hold_ne _ _ hj]
    simp [image, hj, Own.none]

/-- The file that `open("a", O_CREATE | O_RDWR)` makes in an empty file system. -/
def newFile : OpenFile := { openFile with ip := 1 }

/-- Entry 1 of the inode cache has a file of `size` bytes, inode 2. -/
def Fs.newFileAt (t : Fs) (size : UInt32) : Bool :=
  decide (0 < (t.icache 1).ref) && (t.icache 1).valid && (t.icache 1).inum == 2 && (t.icache 1).type == T_FILE &&
    (t.icache 1).size == size

theorem Fs.Standing.view_of_newFileAt {size : UInt32} (h : s.Standing o) (hnew : s.newFileAt size = true) :
    s.Loaded 1 ∧ (s.icache 1).inum = 2 ∧ (s.view 2).type = T_FILE ∧ (s.view 2).size = size := by
  simp only [newFileAt, Bool.and_eq_true, decide_eq_true_eq, beq_iff_eq] at hnew
  obtain ⟨⟨⟨⟨href, hvalid⟩, hinum⟩, htype⟩, hsize⟩ := hnew
  have hview := view_of_caches h.tidy.cacheInj ⟨href, hvalid, hinum⟩
  exact ⟨⟨href, hvalid⟩, hinum, hview ▸ htype, hview ▸ hsize⟩

theorem Fs.Standing.does_newFile {c : WriteCall} {r : Int} {size : UInt32} (h : s.Standing o) (hown : 0 < o 1)
    (hnew : s.newFileAt size = true) (hfile : c.file.ip = 1) (hrun : c.exec s = .ok (r, t)) :
    FsCall.Does s t o (.write c) o := by
  obtain ⟨-, hinum, htype, -⟩ := h.view_of_newFileAt hnew
  refine .write (fun _ _ => ?_) hrun
  rw [hfile, hinum, htype]
  exact ⟨hown, by decide⟩

/-- `open("a", O_CREATE | O_RDWR)` and a write of 700 bytes. -/
theorem new_file_written_through : ∃ t, FsRun (fun s c => c.WritesThrough s) (image emptyDirectory)
      (Own.none.hold 0) t ((Own.none.hold 0).hold 1) ∧
    ∀ ip, t.Loaded ip → t.dinode (t.icache ip).inum = (t.icache ip).toDinode := by
  let c : WriteCall := .write newFile numbered 700
  have hrun : (sysOpen 0 [97] (O_CREATE ||| O_RDWR) true).returns (image emptyDirectory) (fun r t =>
      r == some 1 && t.newFileAt 0 && c.exec.returns t (fun r _ => r == 700)) = true := by
    decide +kernel
  have hs := image_standing
  generalize image emptyDirectory = s at *
  obtain ⟨r, t, hopen, hr⟩ := exists_of_returns hrun
  simp only [Bool.and_eq_true, beq_iff_eq] at hr
  obtain ⟨⟨rfl, hnew⟩, hwrite⟩ := hr
  obtain ⟨r, u, hwrite, -⟩ := exists_of_returns hwrite
  have hdoes : FsCall.Does s t (Own.none.hold 0) (.sysOpen 0 [97] (O_CREATE ||| O_RDWR) true)
      ((Own.none.hold 0).hold 1) := .sysOpen (by decide) hopen
  have ht := hdoes.standing hs trivial
  obtain ⟨-, hinum, -, hsize⟩ := ht.view_of_newFileAt hnew
  have hstreamed : t.Streamed (t.icache newFile.ip).inum newFile.off.toNat (700 : Int32).toInt.toNat := by
    rw [show newFile.ip = 1 from rfl, hinum]
    intro k hk
    have hpos := Nat.lt_min.mpr ⟨Nat.sub_pos_of_lt hk, maxChunk_pos⟩
    exact .inl ⟨hpos, hsize ▸ Nat.add_pos_right _ hpos⟩
  have hreach : FsRun (fun s c => c.WritesThrough s) s (Own.none.hold 0) u ((Own.none.hold 0).hold 1) :=
    (FsRun.refl.step _ trivial hdoes).step (.write c) (.inr (.inr (.inr hstreamed)))
      (ht.does_newFile (by decide) hnew rfl hwrite)
  exact ⟨u, hreach, (inodes_written_through s u _ _ hs hreach).1⟩

/-- Five bytes at 600 of the new file, and then five at 0: the second write puts a block
    below the size into `addrs`, which only the inode in memory has. When that goes, the
    bytes are lost. -/
theorem hole_not_written_through : (image emptyDirectory).Standing (Own.none.hold 0) ∧ ∃ t,
    FsRun (fun _ _ => True) (image emptyDirectory) (Own.none.hold 0) t ((Own.none.hold 0).hold 1) ∧
    t.Loaded 1 ∧ t.dinode (t.icache 1).inum ≠ (t.icache 1).toDinode ∧
    ∃ ip u, reload (t.icache 1).inum (t.release 1) = .ok (ip, u) ∧ u.file ≠ t.file := by
  refine ⟨image_standing, ?_⟩
  let c : WriteCall := .pwrite newFile (fun _ => 7) 5 600
  let d : WriteCall := .pwrite newFile (fun _ => 7) 5 0
  have hrun : (sysOpen 0 [97] (O_CREATE ||| O_RDWR) true).returns (image emptyDirectory) (fun r t =>
      r == some 1 && t.newFileAt 0 && c.exec.returns t (fun _ u => u.newFileAt 605 &&
        d.exec.returns u (fun _ v => decide (0 < (v.icache 1).ref) && (v.icache 1).valid && (v.icache 1).inum == 2 &&
          (v.dinode 2).addrs 0 == 0 && (v.icache 1).addrs 0 != 0 && (v.file 2).byte 0 == 7 &&
          (reload 2).returns (v.release 1) fun _ w => (w.file 2).byte 0 == 0))) = true := by
    decide +kernel
  have hs := image_standing
  generalize image emptyDirectory = s at *
  obtain ⟨r, t, hopen, hr⟩ := exists_of_returns hrun
  simp only [Bool.and_eq_true, beq_iff_eq] at hr
  obtain ⟨⟨rfl, hnew⟩, hrun⟩ := hr
  obtain ⟨r, u, hfirst, hr⟩ := exists_of_returns hrun
  rw [Bool.and_eq_true] at hr
  obtain ⟨hnew', hrun⟩ := hr
  obtain ⟨r, v, hsecond, hr⟩ := exists_of_returns hrun
  simp only [Bool.and_eq_true, decide_eq_true_eq, beq_iff_eq, bne_iff_ne] at hr
  obtain ⟨⟨⟨⟨⟨⟨href, hvalid⟩, hinum⟩, hdisk⟩, hcache⟩, hbyte⟩, hrun⟩ := hr
  obtain ⟨ip, w, hreload, hlost⟩ := exists_of_returns hrun
  rw [beq_iff_eq] at hlost
  have hdoes : FsCall.Does s t (Own.none.hold 0) (.sysOpen 0 [97] (O_CREATE ||| O_RDWR) true)
      ((Own.none.hold 0).hold 1) := .sysOpen (by decide) hopen
  have ht := hdoes.standing hs trivial
  -- the first write grows the file
  have hgrows : t.Copied (t.icache newFile.ip).inum (600 : Int32).toUInt32.toNat
      (min (5 : Int32).toInt.toNat maxChunk) := by
    obtain ⟨-, hinum, -, hsize⟩ := ht.view_of_newFileAt hnew
    rw [show newFile.ip = 1 from rfl, hinum]
    exact .inl ⟨by decide, hsize ▸ by decide⟩
  have hfirst := ht.does_newFile (by decide) hnew rfl hfirst
  have hu := hfirst.standing ht (.inr (.inr (.inr fun _ => hgrows)))
  have hsecond := hu.does_newFile (by decide) hnew' rfl hsecond
  refine ⟨v, ((FsRun.refl.step _ trivial hdoes).step _ trivial hfirst).step _ trivial hsecond, ⟨href, hvalid⟩, ?_, ?_⟩
  · rw [hinum]
    exact fun heq => hcache ((congrFun (congrArg Dinode.addrs heq) 0).symm.trans hdisk)
  · refine ⟨ip, w, hinum ▸ hreload, fun heq => ?_⟩
    rw [heq, hbyte] at hlost
    cases hlost

end Xv6
