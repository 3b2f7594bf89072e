-- SUMMARY: Positional writes: pfilewrite puts every chunk at the same offset.
import Xv6.FileSystem.FileCalls

/-! # Positional writes

`filewrite` and `pfilewrite` both write in chunks of `maxChunk` bytes.
`filewrite` moves `f->off` on after every chunk and so writes the whole buffer.
`pfilewrite` leaves `f->off` alone and does not move its own `off` either: the
chunks end up on top of each other (`File.pile`).
-/

namespace Xv6

open Prog

/-! ## Regular files -/

/-- `ip` refers to a regular file. -/
def Fs.Regular (s : Fs) (ip : InodePtr) : Prop :=
  s.Held ip ∧ (s.view (s.icache ip).inum).type = T_FILE

theorem Fs.Regular.typed {s : Fs} {ip : InodePtr} (h : s.Regular ip) (hinv : s.Inv) : s.Typed ip := by
  intro hvalid h0
  have hno : ∀ jp, ¬ s.Caches jp (s.icache ip).inum := by
    intro jp hjp
    obtain rfl := hinv.cacheInj jp ip hjp.1 h.1 hjp.2.2
    rw [hjp.2.1] at hvalid
    cases hvalid
  have htype := h.2
  rw [Fs.view_of_not_cached hno, h0] at htype
  revert htype
  decide

/-- What writing to the file in `ip` leaves, and which blocks it may add. -/
structure Fs.FileStep (s t : Fs) (ip : InodePtr) (B : Nat → Prop) : Prop where
  inv : t.Inv
  sb : t.sb = s.sb
  outstanding : t.log.outstanding = s.log.outstanding
  ref : (t.icache ip).ref = (s.icache ip).ref
  inum : (t.icache ip).inum = (s.icache ip).inum
  unlocked : (t.icache ip).locked = false
  type : (t.view (s.icache ip).inum).type = (s.view (s.icache ip).inum).type
  kept : ∀ bn, s.blockAddr (s.icache ip).inum bn ≠ 0 → t.blockAddr (s.icache ip).inum bn ≠ 0
  only : ∀ bn, ¬ B bn → t.blockAddr (s.icache ip).inum bn = s.blockAddr (s.icache ip).inum bn

namespace Fs.FileStep

variable {s t u : Fs} {ip : InodePtr} {B : Nat → Prop}

theorem refl (h : s.Inv) (hlocked : (s.icache ip).locked = false) : FileStep s s ip B :=
  ⟨h, rfl, rfl, rfl, rfl, hlocked, rfl, fun _ h => h, fun _ _ => rfl⟩

theorem trans (h : FileStep s t ip B) (h' : FileStep t u ip B) : FileStep s u ip B where
  inv := h'.inv
  sb := h'.sb.trans h.sb
  outstanding := h'.outstanding.trans h.outstanding
  ref := h'.ref.trans h.ref
  inum := h'.inum.trans h.inum
  unlocked := h'.unlocked
  type := (h.inum ▸ h'.type).trans h.type
  kept := fun bn hne => h.inum ▸ h'.kept bn (h.inum.symm ▸ h.kept bn hne)
  only := fun bn hB => (h.inum ▸ h'.only bn hB).trans (h.only bn hB)

theorem mono {B' : Nat → Prop} (h : FileStep s t ip B) (hB : ∀ bn, B bn → B' bn) :
    FileStep s t ip B' :=
  { h with only := fun bn hbn => h.only bn fun hb => hbn (hB bn hb) }

theorem regular (h : FileStep s t ip B) (hr : s.Regular ip) : t.Regular ip := by
  unfold Regular Held at *
  rw [h.ref, h.inum, h.type]
  exact hr

theorem mapped (h : FileStep s t ip B) {off m : Nat} (hm : s.Mapped (s.icache ip).inum off m) :
    t.Mapped (s.icache ip).inum off m := fun p h1 h2 => h.kept _ (hm p h1 h2)

end Fs.FileStep

/-! ## One chunk -/

section Chunk

variable {s : Fs} {ip : InodePtr}

theorem mayStop_true : MayStop fun _ => True := ⟨trivial, trivial, trivial, trivial, trivial⟩

/-- One chunk that fits. -/
theorem wp_writeChunk_file {src : Bytes} {off : UInt32} {n : Nat} (h : s.Inv) (hr : s.Regular ip)
    (hle : off.toNat + n ≤ MAXFILE * BSIZE) :
    wp (writeChunk ip src off n) (fun r t => r = n ∧ Fs.FileStep s t ip (Touches off.toNat n) ∧
      t.Mapped (s.icache ip).inum off.toNat n ∧
      t.file = fun j => if j = (s.icache ip).inum
        then (s.file (s.icache ip).inum).write off.toNat n src else s.file j)
      (fun _ => True) s := by
  have hmax : MAXFILE * BSIZE < 2 ^ 32 := by decide
  refine wp_writeChunk mayStop_true h hr.1 (by omega) (fun _ hdev => ?_)
    (fun _ hbig => absurd hle (not_le.mpr hbig)) fun htyped _ _ w hw => ?_
  · rw [hr.2] at hdev
    exact absurd hdev (by decide)
  · have hsame := Fs.same_enter h hr.1
    have hc := Fs.enter_caches hr.1
    have hend := Fs.same_leave hw.inv ip
    refine ⟨rfl, ⟨hw.inv.leave ip, ?_, ?_, ?_, ?_, ?_, ?_, ?_, ?_⟩, ?_, ?_⟩
    · exact hw.keeps.sb
    · show w.log.finish.outstanding = s.log.outstanding
      rw [Log.finish_outstanding, hw.keeps.outstanding]
      rfl
    · show ((Fs.unlockInode _ ip).icache ip).ref = _
      rw [Fs.unlockInode, Fs.setInode_icache_same]
      exact (hw.keeps.field Inode.ref (fun _ => rfl) ip).trans (by simp [Fs.enter, Fs.lockInode, Inode.lock])
    · show ((Fs.unlockInode _ ip).icache ip).inum = _
      rw [Fs.unlockInode, Fs.setInode_icache_same]
      exact (hw.keeps.inum ip).trans hc.2.2
    · show ((Fs.unlockInode _ ip).icache ip).locked = _
      rw [Fs.unlockInode, Fs.setInode_icache_same]
    · rw [hend.view, hw.type, hsame.view]
    · intro bn hne
      rw [← hsame.blockAddr] at hne
      rw [hend.blockAddr, hw.kept bn hne]
      exact hne
    · intro bn hbn
      rw [hend.blockAddr, hw.only bn hbn, hsame.blockAddr]
    · exact hend.mapped.mpr hw.mapped
    · rw [hend.file, hw.file, hsame.file]

end Chunk

/-! ## The loops -/

/-- Change file `i` only. -/
def putFile (fs : Nat → File) (i : Nat) (f : File) : Nat → File := fun j => if j = i then f else fs j

theorem putFile_same (fs : Nat → File) (i : Nat) (f : File) : putFile fs i f i = f := if_pos rfl

theorem putFile_putFile (fs : Nat → File) (i : Nat) (f g : File) :
    putFile (putFile fs i f) i g = putFile fs i g := by
  funext j
  unfold putFile
  split <;> rfl

theorem putFile_self (fs : Nat → File) (i : Nat) : putFile fs i (fs i) = fs := by
  funext j
  unfold putFile
  split
  · next h => rw [h]
  · rfl

theorem maxChunk_pos : 0 < maxChunk := by decide

theorem ofInt_natCast (n : Nat) : UInt32.ofInt (n : Int) = UInt32.ofNat n := by
  apply UInt32.toNat_inj.mp
  rw [UInt32.toNat_ofNat', UInt32.ofInt, UInt32.toNat_ofNat']
  omega

section Loops

variable {ip : InodePtr}

/-- `pfilewrite` piles its chunks up at `off`. -/
theorem wp_pfilewriteLoop (addr : Bytes) (n : Nat) (off : UInt32)
    (hle : off.toNat + min n maxChunk ≤ MAXFILE * BSIZE) :
    ∀ (fuel i : Nat) (s : Fs), n - i ≤ fuel → i ≤ n → s.Inv → s.Regular ip →
      (s.icache ip).locked = false →
      wp (pfilewriteLoop ip addr n off fuel i) (fun r t => r = n ∧
        Fs.FileStep s t ip (Touches off.toNat (min (n - i) maxChunk)) ∧
        t.Mapped (s.icache ip).inum off.toNat (min (n - i) maxChunk) ∧
        t.file = putFile s.file (s.icache ip).inum
          ((s.file (s.icache ip).inum).pile off.toNat (n - i) maxChunk fun j => addr (i + j)))
        (fun _ => True) s := by
  have hnothing : ∀ (i : Nat) (s : Fs), i = n → s.Inv → (s.icache ip).locked = false →
      i = n ∧ Fs.FileStep s s ip (Touches off.toNat (min (n - i) maxChunk)) ∧
        s.Mapped (s.icache ip).inum off.toNat (min (n - i) maxChunk) ∧
        s.file = putFile s.file (s.icache ip).inum
          ((s.file (s.icache ip).inum).pile off.toNat (n - i) maxChunk fun j => addr (i + j)) := by
    intro i s hi hinv hlocked
    subst hi
    rw [Nat.sub_self, File.pile_zero, putFile_self]
    exact ⟨rfl, .refl hinv hlocked, fun p h1 h2 => by omega, rfl⟩
  intro fuel
  induction fuel with
  | zero =>
    intro i s hfuel hi hinv _ hlocked
    exact hnothing i s (by omega) hinv hlocked
  | succ fuel ih =>
    intro i s hfuel hi hinv hr hlocked
    simp only [pfilewriteLoop]
    by_cases hlt : i < n
    · obtain ⟨n1, hn1⟩ : ∃ n1, n1 = min (n - i) maxChunk := ⟨_, rfl⟩
      have hpos := maxChunk_pos
      simp only [if_pos hlt, wp_bind, ← hn1]
      refine (wp_writeChunk_file hinv hr (by omega)).post ?_
      rintro r t ⟨rfl, hstep, hmap, hfile⟩
      rw [if_neg (by omega), if_neg (by simp)]
      refine (ih (i + n1) t (by omega) (by omega) hstep.inv (hstep.regular hr) hstep.unlocked).post ?_
      rintro r u ⟨hr', hstep', -, hfile'⟩
      have hsub : ∀ bn, Touches off.toNat (min (n - (i + n1)) maxChunk) bn → Touches off.toNat n1 bn := by
        intro bn hbn
        unfold Touches at *
        omega
      refine ⟨hr', hstep.trans (hstep'.mono hsub), ?_, ?_⟩
      · rw [← hstep.inum] at hmap ⊢
        exact hstep'.mapped hmap
      · rw [hfile', hstep.inum, hfile]
        show putFile (putFile s.file _ _) _ _ = _
        have hpile := (s.file (s.icache ip).inum).pile_step off.toNat hpos (show 0 < n - i by omega)
          fun j => addr (i + j)
        rw [← hn1, Nat.sub_sub] at hpile
        rw [putFile_putFile, hpile]
        congr 2
        · exact putFile_same _ _ _
        · funext j
          rw [Nat.add_assoc]
    · rw [if_neg hlt]
      exact hnothing i s (by omega) hinv hlocked

/-- `filewrite` writes the whole buffer and moves on behind it. -/
theorem wp_filewriteLoop (addr : Bytes) (n : Nat) :
    ∀ (fuel i : Nat) (f : OpenFile) (s : Fs), n - i ≤ fuel → i ≤ n →
      f.off.toNat + (n - i) ≤ MAXFILE * BSIZE → s.Inv → s.Regular f.ip →
      (s.icache f.ip).locked = false →
      wp (filewriteLoop addr n fuel i f) (fun r t => r.1 = n ∧
        r.2 = { f with off := f.off + UInt32.ofNat (n - i) } ∧
        Fs.FileStep s t f.ip (Touches f.off.toNat (n - i)) ∧
        t.file = putFile s.file (s.icache f.ip).inum
          ((s.file (s.icache f.ip).inum).write f.off.toNat (n - i) fun j => addr (i + j)))
        (fun _ => True) s := by
  have hmax : MAXFILE * BSIZE < 2 ^ 32 := by decide
  have hnothing : ∀ (i : Nat) (f : OpenFile) (s : Fs), i = n → s.Inv → (s.icache f.ip).locked = false →
      i = n ∧ f = { f with off := f.off + UInt32.ofNat (n - i) } ∧
        Fs.FileStep s s f.ip (Touches f.off.toNat (n - i)) ∧
        s.file = putFile s.file (s.icache f.ip).inum
          ((s.file (s.icache f.ip).inum).write f.off.toNat (n - i) fun j => addr (i + j)) := by
    intro i f s hi hinv hlocked
    subst hi
    rw [Nat.sub_self, File.write_zero, putFile_self]
    exact ⟨rfl, by simp, .refl hinv hlocked, rfl⟩
  intro fuel
  induction fuel with
  | zero =>
    intro i f s hfuel hi _ hinv _ hlocked
    exact hnothing i f s (by omega) hinv hlocked
  | succ fuel ih =>
    intro i f s hfuel hi hle hinv hr hlocked
    simp only [filewriteLoop]
    by_cases hlt : i < n
    · obtain ⟨n1, hn1⟩ : ∃ n1, n1 = min (n - i) maxChunk := ⟨_, rfl⟩
      have hpos := maxChunk_pos
      simp only [if_pos hlt, wp_bind, ← hn1]
      refine (wp_writeChunk_file hinv hr (by omega)).post ?_
      rintro r t ⟨rfl, hstep, -, hfile⟩
      have hr1 : (n1 : Int) > 0 := by omega
      have hoff : (f.off + UInt32.ofInt (n1 : Int)).toNat = f.off.toNat + n1 := by
        rw [ofInt_natCast, UInt32.toNat_add, UInt32.toNat_ofNat']
        omega
      rw [if_neg (by omega), if_neg (by simp), if_pos hr1]
      refine (ih (i + n1) { f with off := f.off + UInt32.ofInt n1 } t (by omega) (by omega) ?_ hstep.inv
        (hstep.regular hr) hstep.unlocked).post ?_
      · rw [hoff]
        omega
      · rintro r u ⟨hr', hf', hstep', hfile'⟩
        have hrest : n - i = n1 + (n - (i + n1)) := by omega
        dsimp only at hf' hstep' hfile'
        rw [hoff] at hstep' hfile'
        refine ⟨hr', hf'.trans ?_, (hstep.mono fun bn hbn => ?_).trans (hstep'.mono fun bn hbn => ?_), ?_⟩
        · rw [hrest, UInt32.ofNat_add, ← UInt32.add_assoc, ofInt_natCast]
        · unfold Touches at *
          omega
        · have hdiv : f.off.toNat / BSIZE ≤ (f.off.toNat + n1) / BSIZE :=
            Nat.div_le_div_right (Nat.le_add_right _ _)
          unfold Touches at *
          omega
        · rw [hfile', hstep.inum, hfile]
          show putFile (putFile s.file _ _) _ _ = _
          rw [putFile_putFile, hrest, ← File.write_append]
          congr 2
          · exact putFile_same _ _ _
          · funext j
            rw [Nat.add_assoc]
    · rw [if_neg hlt]
      exact hnothing i f s (by omega) hinv hlocked

end Loops

/-! ## The calls -/

theorem toNat_toUInt32 {a : Int32} (h : 0 ≤ a.toInt) : a.toUInt32.toNat = a.toInt.toNat := by
  have hcond : a.toInt = if 2 * a.toUInt32.toNat < 2 ^ 32 then (a.toUInt32.toNat : Int)
      else a.toUInt32.toNat - (2 ^ 32 : Nat) := BitVec.toInt_eq_toNat_cond a.toBitVec
  have := a.toUInt32.toNat_lt
  split at hcond <;> omega

/-- A file that is open for writing, and a request that fits. -/
structure WriteRequest (s : Fs) (f : OpenFile) (n off : Int32) : Prop where
  inv : s.Inv
  regular : s.Regular f.ip
  unlocked : (s.icache f.ip).locked = false
  outside : s.log.outstanding = 0
  writable : f.writable = true
  type : f.type = .inode
  n_nonneg : 0 ≤ n.toInt
  off_nonneg : 0 ≤ off.toInt
  fits : off.toInt.toNat + n.toInt.toNat ≤ MAXFILE * BSIZE

/-- Where holes can be after the chunks. -/
theorem Fs.FileStep.mapped_iff {s t : Fs} {ip : InodePtr} {off n : Nat}
    (h : Fs.FileStep s t ip (Touches off (min n maxChunk)))
    (hmap : t.Mapped (s.icache ip).inum off (min n maxChunk)) :
    t.Mapped (s.icache ip).inum off n ↔ ∀ k, maxChunk ≤ k → k < n →
      Touches off maxChunk ((off + k) / BSIZE) ∨
        s.blockAddr (s.icache ip).inum ((off + k) / BSIZE) ≠ 0 := by
  have hpos := maxChunk_pos
  constructor
  · intro hall k hk hkn
    have hmin : min n maxChunk = maxChunk := by omega
    by_cases htouch : Touches off maxChunk ((off + k) / BSIZE)
    · exact .inl htouch
    · right
      rw [← h.only _ (by rw [hmin]; exact htouch)]
      exact hall (off + k) (by omega) (by omega)
  · intro hall p h1 h2
    by_cases hp : p < off + min n maxChunk
    · exact hmap p h1 hp
    · have hmin : min n maxChunk = maxChunk := by omega
      rcases hall (p - off) (by omega) (by omega) with htouch | hne
      · obtain ⟨q, hq1, hq2, hq⟩ := htouch.exists_pos hpos
        rw [show off + (p - off) = p by omega] at hq
        rw [← hq]
        exact hmap q hq1 (by rw [hmin]; exact hq2)
      · rw [show off + (p - off) = p by omega] at hne
        exact h.kept _ hne

section Calls

variable {s t : Fs} {f : OpenFile} {addr : Bytes} {n off : Int32}

/-- What `pfilewrite` does. -/
theorem wp_pfilewrite (h : WriteRequest s f n off) :
    wp (pfilewrite f addr n off) (fun r t => r = n.toInt ∧
      Fs.FileStep s t f.ip (Touches off.toInt.toNat (min n.toInt.toNat maxChunk)) ∧
      t.Mapped (s.icache f.ip).inum off.toInt.toNat (min n.toInt.toNat maxChunk) ∧
      t.file = putFile s.file (s.icache f.ip).inum
        ((s.file (s.icache f.ip).inum).pile off.toInt.toNat n.toInt.toNat maxChunk addr))
      (fun _ => True) s := by
  have hwritable : ¬ f.writable = false := by simp [h.writable]
  have hle := h.fits
  simp only [pfilewrite, if_neg hwritable, h.type, wp_bind, wp_pure]
  refine (wp_pfilewriteLoop addr n.toInt.toNat off.toUInt32 ?_ _ 0 s (by omega) (by omega) h.inv
    h.regular h.unlocked).post ?_
  · rw [toNat_toUInt32 h.off_nonneg]
    omega
  · rintro r t ⟨rfl, hstep, hmap, hfile⟩
    simp only [Nat.sub_zero, Nat.zero_add, toNat_toUInt32 h.off_nonneg] at hstep hmap hfile
    refine ⟨?_, hstep, hmap, hfile⟩
    rw [Int.toNat_of_nonneg h.n_nonneg, if_pos rfl]

/-- What `filewrite` does from the same position. -/
theorem wp_filewrite (h : WriteRequest s f n off) :
    wp (filewrite { f with off := off.toUInt32 } addr n) (fun r t => r.1 = n.toInt ∧
      t.file = putFile s.file (s.icache f.ip).inum
        ((s.file (s.icache f.ip).inum).write off.toInt.toNat n.toInt.toNat addr))
      (fun _ => True) s := by
  have hwritable : ¬ f.writable = false := by simp [h.writable]
  have hle := h.fits
  simp only [filewrite, if_neg hwritable, h.type, wp_bind, wp_pure]
  refine (wp_filewriteLoop addr n.toInt.toNat n.toInt.toNat 0
    { f with type := .inode, off := off.toUInt32 } s (by omega) (by omega) ?_ h.inv h.regular
    h.unlocked).post ?_
  · rw [toNat_toUInt32 h.off_nonneg]
    omega
  · rintro r t ⟨hr, -, -, hfile⟩
    simp only [Nat.sub_zero, Nat.zero_add, toNat_toUInt32 h.off_nonneg] at hfile
    refine ⟨?_, hfile⟩
    rw [hr, Int.toNat_of_nonneg h.n_nonneg, if_pos rfl]

/-- `pfileread` outside of a transaction returns just when the range has no holes. -/
theorem pfileread_ok_iff (h : s.Inv) (hr : s.Regular f.ip) (hlocked : (s.icache f.ip).locked = false)
    (hout : s.log.outstanding = 0) (htype : f.type = .inode) (hn : 0 ≤ n.toInt) (hoff : 0 ≤ off.toInt)
    (hle : off.toInt.toNat + n.toInt.toNat ≤ (s.file (s.icache f.ip).inum).size) (bs : List UInt8) :
    (∃ u, pfileread f n off s = .ok ((n.toInt, bs), u)) ↔ f.readable = true ∧
      s.Mapped (s.icache f.ip).inum off.toInt.toNat n.toInt.toNat ∧
      bs = (s.file (s.icache f.ip).inum).byte.slice off.toInt.toNat n.toInt.toNat := by
  have hlt := h.cacheRange f.ip hr.1
  have htyped := hr.typed h
  have hdev : (s.view (s.icache f.ip).inum).type ≠ T_DEV := by
    rw [hr.2]
    decide
  have hsize : (s.view (s.icache f.ip).inum).size.toNat ≤ MAXFILE * BSIZE := by
    refine h.sizeLe _ ⟨hlt, ?_⟩
    rw [hr.2]
    decide
  have hmax : MAXFILE * BSIZE < 2 ^ 32 := by decide
  rw [Fs.file_of_lt hlt] at hle ⊢
  dsimp only at hle ⊢
  have hlen : readLen (s.view (s.icache f.ip).inum).size.toNat off.toUInt32.toNat n.toUInt32.toNat =
      n.toInt.toNat := by
    rw [toNat_toUInt32 hn, toNat_toUInt32 hoff, readLen]
    omega
  by_cases hread : f.readable = true
  · have hreadable : ¬ f.readable = false := by simp [hread]
    by_cases hmap : s.Mapped (s.icache f.ip).inum off.toInt.toNat n.toInt.toNat
    · -- the call returns the bytes of the file
      have hreply : s.readReply (s.icache f.ip).inum off.toUInt32.toNat n.toUInt32.toNat =
          (n.toInt, (s.byte (s.icache f.ip).inum).slice off.toInt.toNat n.toInt.toNat) := by
        unfold Fs.readReply
        rw [hlen, toNat_toUInt32 hn, toNat_toUInt32 hoff, if_neg (by omega), Int.toNat_of_nonneg hn]
      have hrun : wp (pfileread f n off) (fun r _ => r =
          (n.toInt, (s.byte (s.icache f.ip).inum).slice off.toInt.toNat n.toInt.toNat))
          (fun _ => False) s := by
        simp only [pfileread, if_neg hreadable, htype, wp_bind, wp_pure]
        refine wp_lockedRead_of_mapped h hr.1 htyped hlocked hdev ?_ hreply
        rw [hlen, toNat_toUInt32 hoff]
        exact hmap
      obtain ⟨r, u, hok, rfl⟩ := hrun.run_ok
      rw [hok]
      constructor
      · rintro ⟨v, heq⟩
        injection heq with heq
        injection heq with heq
        injection heq with _ heq
        exact ⟨hread, hmap, heq.symm⟩
      · rintro ⟨-, -, rfl⟩
        exact ⟨u, rfl⟩
    · -- the call stops in the hole
      have hrun : wp (pfileread f n off) (fun _ _ => False) (fun _ => True) s := by
        simp only [pfileread, if_neg hreadable, htype, wp_bind, wp_pure]
        refine wp_lockedRead_of_hole h hr.1 htyped hlocked hdev ?_ ?_ ?_ hout ⟨trivial, trivial, trivial⟩
        · rw [toNat_toUInt32 hoff]
          omega
        · rw [toNat_toUInt32 hoff, toNat_toUInt32 hn]
          omega
        · rw [hlen, toNat_toUInt32 hoff]
          exact hmap
      constructor
      · rintro ⟨u, hok⟩
        exact (hrun.of_run hok).elim
      · rintro ⟨-, hmap', -⟩
        exact absurd hmap' hmap
  · have hreadable : f.readable = false := by simpa using hread
    have hfail : pfileread f n off s = .ok ((-1, []), s) := by
      simp only [pfileread, if_pos hreadable]
      rfl
    rw [hfail]
    constructor
    · rintro ⟨u, heq⟩
      injection heq with heq
      injection heq with heq
      injection heq with heq _
      omega
    · rintro ⟨hread', -⟩
      exact absurd hread' hread

/-- Nothing is lost although every chunk goes to `off`: the buffer is one chunk, or
    its chunks are all alike and the file holds the rest already, without holes. -/
def PilesWell (s : Fs) (i : Nat) (addr : Bytes) (n off : Nat) : Prop :=
  maxChunk < n →
    off + n ≤ (s.file i).size ∧
    (∀ k < maxChunk, addr (maxChunk * ((n - 1 - k) / maxChunk) + k) = addr k) ∧
    ∀ k, maxChunk ≤ k → k < n → (s.file i).byte (off + k) = addr k ∧
      (Touches off maxChunk ((off + k) / BSIZE) ∨ s.blockAddr i ((off + k) / BSIZE) ≠ 0)

/-- The bytes and the size come out right. -/
theorem pile_contents_iff (g : File) (off n : Nat) (addr : Bytes) :
    ((g.pile off n maxChunk addr).size = max g.size (off + n) ∧
      (g.pile off n maxChunk addr).byte = g.byte.splice off n addr) ↔
    (n = 0 → off ≤ g.size) ∧ (maxChunk < n → off + n ≤ g.size ∧
      (∀ k < maxChunk, addr (maxChunk * ((n - 1 - k) / maxChunk) + k) = addr k) ∧
      ∀ k, maxChunk ≤ k → k < n → g.byte (off + k) = addr k) := by
  have hiff := g.pile_eq_write_iff off n maxChunk_pos addr
  rcases Nat.eq_zero_or_pos n with rfl | hn
  · have hsplice : g.byte.splice off 0 addr = g.byte := congrArg File.byte (g.write_zero off addr)
    rw [File.pile_zero, hsplice]
    simp
  · have hwrite : g.write off n addr = ⟨max g.size (off + n), g.byte.splice off n addr⟩ := by
      simp only [File.write, if_pos hn]
    have hparts : g.pile off n maxChunk addr = g.write off n addr ↔
        (g.pile off n maxChunk addr).size = max g.size (off + n) ∧
          (g.pile off n maxChunk addr).byte = g.byte.splice off n addr := by
      rw [hwrite]
      exact ⟨fun heq => ⟨congrArg File.size heq, congrArg File.byte heq⟩, fun heq => File.ext heq.1 heq.2⟩
    rw [← hparts, hiff]
    constructor
    · rintro (hle | hrest)
      · exact ⟨fun h0 => by omega, fun hlt => by omega⟩
      · exact ⟨fun h0 => by omega, fun _ => hrest⟩
    · rintro ⟨-, hrest⟩
      by_cases hlt : maxChunk < n
      · exact .inr (hrest hlt)
      · exact .inl (not_lt.mp hlt)

/-- `pfilewrite` is a positional write exactly when nothing is lost in its chunks,
    and it can be read back when the file is open for reading and, if nothing is
    written, `off` is in the file. -/
theorem pfilewrite_positional_iff (h : WriteRequest s f n off)
    (hrun : pfilewrite f addr n off s = .ok (n.toInt, t)) :
    ((∀ j, j ≠ (s.icache f.ip).inum → t.file j = s.file j) ∧
      (t.file (s.icache f.ip).inum).size =
        max (s.file (s.icache f.ip).inum).size (off.toInt.toNat + n.toInt.toNat) ∧
      (t.file (s.icache f.ip).inum).byte =
        (s.file (s.icache f.ip).inum).byte.splice off.toInt.toNat n.toInt.toNat addr ∧
      (∀ f' u, filewrite { f with off := off.toUInt32 } addr n s = .ok ((n.toInt, f'), u) →
        t.file = u.file) ∧
      ∃ u, pfileread f n off t = .ok ((n.toInt, addr.slice 0 n.toInt.toNat), u)) ↔
    f.readable = true ∧
      (n.toInt = 0 → off.toInt.toNat ≤ (s.file (s.icache f.ip).inum).size) ∧
      PilesWell s (s.icache f.ip).inum addr n.toInt.toNat off.toInt.toNat := by
  obtain ⟨-, hstep, hmap, hfile⟩ := (wp_pfilewrite h).of_run hrun
  have hn := h.n_nonneg
  have hcontents := pile_contents_iff (s.file (s.icache f.ip).inum) off.toInt.toNat n.toInt.toNat addr
  have hholes := hstep.mapped_iff hmap
  have hti : t.file (s.icache f.ip).inum = _ := hfile ▸ putFile_same _ _ _
  have hread : off.toInt.toNat + n.toInt.toNat ≤ (t.file (s.icache f.ip).inum).size → _ := fun hle =>
    pfileread_ok_iff hstep.inv (hstep.regular h.regular) hstep.unlocked
      (hstep.outstanding.trans h.outside) h.type hn h.off_nonneg (hstep.inum.symm ▸ hle)
      (addr.slice 0 n.toInt.toNat)
  rw [hstep.inum] at hread
  constructor
  · rintro ⟨-, hsize, hbyte, -, hback⟩
    obtain ⟨hreadable, hmapped, -⟩ := (hread (hsize ▸ le_max_right _ _)).mp hback
    rw [hti] at hsize hbyte
    obtain ⟨hzero, hpile⟩ := hcontents.mp ⟨hsize, hbyte⟩
    refine ⟨hreadable, fun h0 => hzero (by omega), fun hlt => ?_⟩
    obtain ⟨hin, hlow, hhigh⟩ := hpile hlt
    exact ⟨hin, hlow, fun k hk hkn => ⟨hhigh k hk hkn, hholes.mp hmapped k hk hkn⟩⟩
  · rintro ⟨hreadable, hzero, hpile⟩
    obtain ⟨hsize, hbyte⟩ := hcontents.mpr ⟨fun h0 => hzero (by omega), fun hlt =>
      ⟨(hpile hlt).1, (hpile hlt).2.1, fun k hk hkn => ((hpile hlt).2.2 k hk hkn).1⟩⟩
    rw [← hti] at hsize hbyte
    refine ⟨fun j hj => ?_, hsize, hbyte, fun f' u hrun' => ?_, ?_⟩
    · rw [hfile, putFile, if_neg hj]
    · obtain ⟨-, hfile'⟩ := (wp_filewrite h).of_run hrun'
      rw [hfile, hfile']
      congr 1
      rw [hti] at hsize hbyte
      refine File.ext ?_ hbyte
      rw [hsize, File.write]
      dsimp only
      split
      · rfl
      · have := hzero (by omega)
        omega
    · refine (hread (hsize ▸ le_max_right _ _)).mpr ⟨hreadable, hholes.mpr fun k hk hkn => ?_, ?_⟩
      · exact ((hpile (by omega)).2.2 k hk hkn).2
      · rw [hbyte, Bytes.slice_splice]

end Calls

/-! ## Two requests -/

/-- A file open for reading and writing, of the inode in entry 0. -/
def openFile : OpenFile where
  type := .inode
  ref := 1
  readable := true
  writable := true
  pipe := ⟨fun _ => (0, []), fun _ _ => 0⟩
  ip := 0
  off := 0

theorem writeRequest_image {n off : Int32} (hn : 0 ≤ n.toInt) (hoff : 0 ≤ off.toInt)
    (hfits : off.toInt.toNat + n.toInt.toNat ≤ MAXFILE * BSIZE) :
    WriteRequest (image emptyFile) openFile n off where
  inv := image_inv rfl (by decide) (Nat.zero_le _)
  regular := ⟨Int.one_pos, by rw [show ((image emptyFile).icache openFile.ip).inum = 1 from rfl,
    image.view_eq emptyFile (by decide)]; rfl⟩
  unlocked := rfl
  outside := rfl
  writable := rfl
  type := rfl
  n_nonneg := hn
  off_nonneg := hoff
  fits := hfits

/-- Five bytes past the end. -/
theorem pfilewrite_positional_iff_small : ∃ t,
    pfilewrite openFile numbered 5 600 (image emptyFile) = .ok (5, t) ∧
    (t.file 1).size = 605 ∧
    ∃ u, pfileread openFile 5 600 t = .ok ((5, numbered.slice 0 5), u) := by
  have hrun : (pfilewrite openFile numbered 5 600).returns (image emptyFile) (fun r _ => r == 5) = true := by
    decide +kernel
  have hreq : WriteRequest (image emptyFile) openFile 5 600 :=
    writeRequest_image (by decide) (by decide) (by decide)
  have hinum : ((image emptyFile).icache openFile.ip).inum = 1 := rfl
  have hsize : ((image emptyFile).file 1).size = 0 := by decide +kernel
  generalize image emptyFile = s at *
  obtain ⟨r, t, hok, hr⟩ := exists_of_returns hrun
  obtain rfl : r = 5 := by simpa using hr
  have hpos := (pfilewrite_positional_iff hreq hok).mpr
    ⟨rfl, fun h0 => absurd h0 (by decide), fun hbig => absurd hbig (by decide)⟩
  rw [hinum, hsize] at hpos
  exact ⟨t, hok, hpos.2.1, hpos.2.2.2.2⟩

/-- Two chunks: the last byte of the buffer lands on the first byte of the file, and
    the file is one byte short. -/
theorem pfilewrite_loses_chunk : WriteRequest (image emptyFile) openFile 1537 0 ∧ ∃ t,
    pfilewrite openFile numbered 1537 0 (image emptyFile) = .ok (1537, t) ∧
    (t.file 1).size = 1536 ∧ (t.file 1).byte 0 = 3 ∧ numbered 0 = 0 := by
  refine ⟨writeRequest_image (by decide) (by decide) (by decide), ?_⟩
  have hrun : (pfilewrite openFile numbered 1537 0).returns (image emptyFile) (fun r t =>
      r == 1537 && (t.file 1).size == 1536 && (t.file 1).byte 0 == 3) = true := by
    decide +kernel
  generalize image emptyFile = s at *
  obtain ⟨r, t, hok, hr⟩ := exists_of_returns hrun
  simp only [Bool.and_eq_true, beq_iff_eq] at hr
  obtain ⟨⟨rfl, hsize⟩, hbyte⟩ := hr
  exact ⟨t, hok, hsize, hbyte, rfl⟩

end Xv6
