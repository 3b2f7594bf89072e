-- SUMMARY: Sequences of readi and writei calls refine abstract byte files.
import Xv6.Base.ByteFile
import Xv6.FileSystem.Holes
import Xv6.FileSystem.Image

/-! # Files refine byte arrays

`Fs.file` abstracts an inode to its size and its bytes. Every call of `readi` or
`writei` on a regular file or a directory does to these abstract files what the
corresponding `FileOp` does, and so does every sequence of calls, in any number
of transactions. Calls that meet no holes return if the log has room for what
their transaction writes.
-/

namespace Xv6

open Prog

/-! ## Abstraction -/

/-- File `i` as a byte array with a size. There is nothing in an inode that does
    not exist. -/
def Fs.file (s : Fs) (i : Nat) : File :=
  if i < s.sb.ninodes then ⟨(s.view i).size.toNat, s.byte i⟩ else ⟨0, Bytes.zero⟩

/-- Offsets are 32 bits wide, and the block map ends at `MAXFILE`. -/
def fileLimits : FileLimits := ⟨2 ^ 32, MAXFILE * BSIZE⟩

inductive Call where
  | readi (ip : InodePtr) (off n : UInt32)
  | writei (ip : InodePtr) (src : Bytes) (off n : UInt32)

namespace Call

def ip : Call → InodePtr
  | .readi ip _ _    => ip
  | .writei ip _ _ _ => ip

/-- Make the call. The result is the return value and the bytes stored at `dst`. -/
def exec : Call → FS (Int × List UInt8)
  | .readi ip off n      => Xv6.readi ip off n
  | .writei ip src off n => do
    let r ← Xv6.writei ip src off n
    pure (r, [])

/-- The call on abstract files, in a state whose cache says which file is meant. -/
def op (s : Fs) : Call → FileOp
  | .readi ip off n      => .read (s.icache ip).inum off.toNat n.toNat
  | .writei ip src off n => .write (s.icache ip).inum off.toNat n.toNat src

/-- The calls made between one `begin_op` and its `end_op`. -/
def execAll : List Call → FS (List (Int × List UInt8))
  | []      => pure []
  | c :: cs => do
    let r ← c.exec
    let rs ← execAll cs
    pure (r :: rs)

/-- Transactions one after the other. -/
def transactions : List (List Call) → FS (List (Int × List UInt8))
  | []      => pure []
  | cs :: ts => do
    beginOp
    let rs ← execAll cs
    endOp
    let rest ← transactions ts
    pure (rs ++ rest)

end Call

/-- `ip` points to a valid regular file or directory. -/
def Fs.Target (s : Fs) (ip : InodePtr) : Prop :=
  0 < (s.icache ip).ref ∧ (s.icache ip).valid = true ∧
    ((s.icache ip).type = T_FILE ∨ (s.icache ip).type = T_DIR)

/-! ## What calls leave alone -/

/-- An inode without its size and block pointers. -/
def Inode.head (x : Inode) : Inode := { x with size := 0, addrs := fun _ => 0 }

/-- Every cache entry holds the same inode as before. -/
structure Fs.Keeps (s s' : Fs) : Prop where
  sb : s'.sb = s.sb
  outstanding : s'.log.outstanding = s.log.outstanding
  head : ∀ ip, (s'.icache ip).head = (s.icache ip).head

namespace Fs.Keeps

variable {s t u : Fs}

theorem refl (s : Fs) : Keeps s s := ⟨rfl, rfl, fun _ => rfl⟩

theorem trans (h : Keeps s t) (h' : Keeps t u) : Keeps s u :=
  ⟨h'.sb.trans h.sb, h'.outstanding.trans h.outstanding, fun ip => (h'.head ip).trans (h.head ip)⟩

theorem of_extend (h : Extend s t) : Keeps s t :=
  ⟨h.sb, h.outstanding, fun ip => by rw [← h.inode ip]; rfl⟩

theorem of_resize (s : Fs) (ip : InodePtr) (z : Nat) : Keeps s (s.resize ip z) := by
  refine ⟨rfl, rfl, fun jp => ?_⟩
  by_cases hj : jp = ip
  · subst hj
    simp [resize, Inode.head]
  · simp [resize, setInode_icache_ne _ _ hj]

theorem of_writeEnd (s : Fs) (ip : InodePtr) (off n : Nat) : Keeps s (writeEnd s ip off n) := by
  unfold writeEnd
  split
  · exact of_resize s ip _
  · exact refl s

/-- Fields other than the size and the block pointers. -/
theorem field {α : Type} (h : Keeps s t) (f : Inode → α) (hf : ∀ x, f x.head = f x) (ip : InodePtr) :
    f (t.icache ip) = f (s.icache ip) := by
  rw [← hf, h.head, hf]

theorem inum (h : Keeps s t) (ip : InodePtr) : (t.icache ip).inum = (s.icache ip).inum :=
  h.field Inode.inum (fun _ => rfl) ip

theorem target (h : Keeps s t) {ip : InodePtr} (ht : s.Target ip) : t.Target ip := by
  unfold Target at *
  rw [h.field Inode.ref fun _ => rfl, h.field Inode.valid fun _ => rfl,
    h.field (fun x => x.type) fun _ => rfl]
  exact ht

theorem op (h : Keeps s t) (c : Call) : c.op t = c.op s := by
  cases c <;> simp only [Call.op, h.inum]

end Fs.Keeps

namespace Fs.Target

variable {s : Fs} {ip : InodePtr}

theorem caches (h : s.Target ip) : s.Caches ip (s.icache ip).inum := ⟨h.1, h.2.1, rfl⟩

theorem type_ne (h : s.Target ip) : (s.icache ip).type ≠ T_DEV ∧ (s.icache ip).type ≠ 0 := by
  rcases h.2.2 with ht | ht <;> rw [ht] <;> decide

theorem allocated (h : s.Target ip) (hwf : s.Wf) : s.Allocated (s.icache ip).inum := by
  refine ⟨hwf.cacheRange ip h.1, ?_⟩
  rw [Fs.view_of_caches hwf.cacheInj h.caches]
  exact h.type_ne.2

end Fs.Target

/-! ## One call -/

/-- The ways a sequence of calls may stop: the log is full, or the disk is. -/
def LogOrDiskFull (e : Stop) : Prop :=
  e = .tooBigTransaction ∨ e = .ballocOutOfBlocks ∨ e = .asleep

section OneCall

variable {s : Fs} {ip : InodePtr}

theorem Fs.file_of_lt {i : Nat} (h : i < s.sb.ninodes) :
    s.file i = ⟨(s.view i).size.toNat, s.byte i⟩ := if_pos h

/-- Filling holes changes no file. -/
theorem Fs.Grow.file {t : Fs} (g : Fs.Grow s t) (hwf : s.Wf) : t.file = s.file := by
  funext i
  unfold Fs.file
  rw [g.sb]
  split
  · next hi => rw [g.view_size hwf.cacheInj hi, g.byte]
  · rfl

theorem wp_readi_file {off n : UInt32} (hwf : s.Wf) (ht : s.Target ip) (hin : 1 ≤ s.log.outstanding) :
    wp (readi ip off n) (fun r s' => s'.Wf ∧ Fs.Keeps s s' ∧
      (r, s'.file) = FileOp.step fileLimits s.file (.read (s.icache ip).inum off.toNat n.toNat))
      LogOrDiskFull s := by
  have hlt := hwf.cacheRange ip ht.1
  have hsize : (s.file (s.icache ip).inum).size = (s.view (s.icache ip).inum).size.toNat := by
    rw [Fs.file_of_lt hlt]
  refine wp_readi (I := fun _ => True) (.inr (.inl rfl)) hwf ht.caches (ht.allocated hwf)
    ht.type_ne.1 ⟨.inl rfl, .inl hin⟩ trivial (fun bn _ _ => bmapStep_true ip _ bn) (fun hbad => ?_)
    fun t hoff hsum _ hwft g => ?_
  · have hfail : fileLimits.ReadFails (s.file (s.icache ip).inum) off.toNat n.toNat := by
      unfold FileLimits.ReadFails
      rw [hsize]
      exact hbad
    refine ⟨hwf, .refl s, ?_⟩
    simp only [FileOp.step, if_pos hfail]
  · have hfail : ¬ fileLimits.ReadFails (s.file (s.icache ip).inum) off.toNat n.toNat := by
      unfold FileLimits.ReadFails
      rw [hsize]
      exact not_or.mpr ⟨not_lt.mpr hoff, not_le.mpr hsum⟩
    refine ⟨hwft, .of_extend g.toExtend, ?_⟩
    rw [g.file hwf]
    simp only [FileOp.step, if_neg hfail]
    rw [Fs.file_of_lt hlt]
    rfl

/-- The files after `writei`. -/
theorem writeEnd_file {t : Fs} {i off n : Nat} {src : Bytes} (hwf : s.Wf) (hwft : t.Wf)
    (hw : Fs.Written s t i off n src) (hlt : i < s.sb.ninodes) (hip : t.Caches ip i)
    (hle : off + n ≤ MAXFILE * BSIZE) :
    (writeEnd t ip off n).file = fun j => if j = i then (s.file i).write off n src else s.file j := by
  have hsb : (writeEnd t ip off n).sb = s.sb :=
    ((Fs.Keeps.of_extend hw.toExtend).trans (.of_writeEnd t ip _ _)).sb
  funext j
  by_cases hjlt : j < s.sb.ninodes
  · rw [Fs.file_of_lt (hsb ▸ hjlt), Fs.file_of_lt hlt, Fs.file_of_lt hjlt,
      writeEnd_size hwft hip hle, writeEnd_byte hwft hip hle, hw.view_size hwf.cacheInj hlt,
      hw.view_size hwf.cacheInj hjlt]
    by_cases hj : j = i
    · subst hj
      simp only [true_and, if_true, File.write]
      exact File.ext rfl (funext fun p => (hw.byte _ p).trans (if_pos rfl))
    · rw [if_neg hj, if_neg fun hc => hj hc.1]
      exact File.ext rfl (funext fun p => (hw.byte j p).trans (if_neg hj))
  · have hj : j ≠ i := fun heq => hjlt (heq ▸ hlt)
    unfold Fs.file
    rw [hsb, if_neg hjlt, if_neg hj, if_neg hjlt]

theorem wp_writei_file {src : Bytes} {off n : UInt32} (hwf : s.Wf) (ht : s.Target ip)
    (hin : 1 ≤ s.log.outstanding) :
    wp (writei ip src off n) (fun r s' => s'.Wf ∧ Fs.Keeps s s' ∧ ((r, []), s'.file) =
      FileOp.step fileLimits s.file (.write (s.icache ip).inum off.toNat n.toNat src))
      LogOrDiskFull s := by
  have hlt := hwf.cacheRange ip ht.1
  have hmax : MAXFILE * BSIZE < 2 ^ 32 := by decide
  refine wp_writei (I := fun _ => True) (.inr (.inl rfl)) hwf ht.caches (ht.allocated hwf)
    ht.type_ne.1 ⟨.inl rfl, .inl hin⟩ trivial (fun _ bn _ _ => bmapStep_true ip _ bn)
    (fun _ _ _ _ _ _ _ _ _ => trivial) (fun hbad => ?_) fun t hle _ hwft hw => ?_
  · have hfail : fileLimits.WriteFails off.toNat n.toNat := .inr hbad
    refine ⟨hwf, .refl s, ?_⟩
    simp only [FileOp.step, if_pos hfail]
  · have hfail : ¬ fileLimits.WriteFails off.toNat n.toNat :=
      not_or.mpr ⟨not_le.mpr (hle.trans_lt hmax), not_lt.mpr hle⟩
    have hipt := hw.caches ht.caches
    refine ⟨writeEnd_wf hwft hipt hle,
      (Fs.Keeps.of_extend hw.toExtend).trans (.of_writeEnd t ip _ _), ?_⟩
    simp only [FileOp.step, if_neg hfail]
    exact Prod.ext rfl (writeEnd_file hwf hwft hw hlt hipt hle)

theorem wp_exec (hwf : s.Wf) (c : Call) (ht : s.Target c.ip) (hin : 1 ≤ s.log.outstanding) :
    wp c.exec (fun r s' => s'.Wf ∧ Fs.Keeps s s' ∧
      (r, s'.file) = FileOp.step fileLimits s.file (c.op s)) LogOrDiskFull s := by
  cases c with
  | readi ip off n => exact wp_readi_file hwf ht hin
  | writei ip src off n =>
    simp only [Call.exec, wp_bind, wp_pure]
    exact wp_writei_file hwf ht hin

end OneCall

/-! ## Sequences of calls -/

section Sequences

variable {s : Fs}

theorem wp_execAll (cs : List Call) (s : Fs) (hwf : s.Wf) (hcs : ∀ c ∈ cs, s.Target c.ip)
    (hin : 1 ≤ s.log.outstanding) :
    wp (Call.execAll cs) (fun rs s' => s'.Wf ∧ Fs.Keeps s s' ∧
      (rs, s'.file) = FileOp.run fileLimits s.file (cs.map (·.op s))) LogOrDiskFull s := by
  induction cs generalizing s with
  | nil => exact ⟨hwf, .refl s, rfl⟩
  | cons c cs ih =>
    simp only [Call.execAll, wp_bind, wp_pure]
    refine (wp_exec hwf c (hcs c (by simp)) hin).post ?_
    rintro r t ⟨hwft, hkeep, heq⟩
    have htargets : ∀ c ∈ cs, t.Target c.ip := fun c' hc' => hkeep.target (hcs c' (by simp [hc']))
    refine (ih t hwft htargets (by rw [hkeep.outstanding]; exact hin)).post ?_
    rintro rs u ⟨hwfu, hkeep', heq'⟩
    have hops : cs.map (·.op t) = cs.map (·.op s) := List.map_congr_left fun c' _ => hkeep.op c'
    refine ⟨hwfu, hkeep.trans hkeep', ?_⟩
    rw [hops] at heq'
    simp only [List.map_cons, FileOp.run, ← heq, ← heq']

theorem wp_transactions (ts : List (List Call)) (s : Fs) (hwf : s.Wf)
    (hts : ∀ cs ∈ ts, ∀ c ∈ cs, s.Target c.ip) :
    wp (Call.transactions ts) (fun rs s' => s'.Wf ∧ (∀ ip, s.Target ip → s'.Target ip) ∧
      (rs, s'.file) = FileOp.run fileLimits s.file (ts.flatten.map (·.op s))) LogOrDiskFull s := by
  induction ts generalizing s with
  | nil => exact ⟨hwf, fun _ h => h, rfl⟩
  | cons cs ts ih =>
    simp only [Call.transactions, wp_bind, wp_pure]
    refine wp_beginOp (.inr (.inr rfl)) ?_
    have hstart : ∀ c ∈ cs, (s.setLog s.log.start).Target c.ip := hts cs (by simp)
    refine (wp_execAll cs _ (hwf.setLog _) hstart (Nat.le_add_left 1 _)).post ?_
    rintro rs t ⟨hwft, hkeep, heq⟩
    rw [wp_endOp]
    have htargets : ∀ ip, s.Target ip → t.Target ip := fun ip h => hkeep.target h
    have hops : ∀ c : Call, c.op t = c.op s := fun c => hkeep.op c
    refine (ih (t.setLog t.log.finish) (hwft.setLog _) fun cs' hcs' c hc =>
      htargets _ (hts cs' (by simp [hcs']) c hc)).post ?_
    rintro rest u ⟨hwfu, htargets', heq'⟩
    refine ⟨hwfu, fun ip h => htargets' ip (htargets ip h), ?_⟩
    have hfirst : (rs, t.file) = FileOp.run fileLimits s.file (cs.map (·.op s)) := heq
    have hrest : (rest, u.file) = FileOp.run fileLimits t.file (ts.flatten.map (·.op s)) := by
      rw [← List.map_congr_left fun c _ => hops c]
      exact heq'
    rw [List.flatten_cons, List.map_append, FileOp.run_append, ← hfirst, ← hrest]

end Sequences

/-! ## Calls that return -/

/-- What a transaction finds and leaves that meets no holes. -/
structure Fs.Overwritten (s t : Fs) : Prop extends Keeps s t where
  blockAddr : t.blockAddr = s.blockAddr
  size : t.log.size = s.log.size

namespace Call

/-- There are no holes in the range of the call. -/
def Mapped (s : Fs) : Call → Prop
  | .readi ip off n | .writei ip _ off n => s.Mapped (s.icache ip).inum off.toNat n.toNat

/-- The call may log block `b`. -/
def Logs (s : Fs) (b : Nat) : Call → Prop
  | .readi _ _ _ => False
  | .writei ip _ off n => b = s.sb.IBLOCK (s.icache ip).inum ∨
    ∃ bn, Touches off.toNat n.toNat bn ∧ b = (s.blockAddr (s.icache ip).inum bn).toNat

/-- The calls of one transaction meet no holes, and the log has room for what they write. -/
def Fit (s : Fs) (cs : List Call) : Prop :=
  ∃ B : Finset Nat, (∀ c ∈ cs, s.Target c.ip ∧ c.Mapped s ∧ ∀ b, c.Logs s b → b ∈ B) ∧
    B.card < LOGSIZE ∧ B.card < s.log.size - 1

end Call

section Returning

variable {s t : Fs} {B : Finset Nat}

theorem Fs.Overwritten.mapped (h : s.Overwritten t) {c : Call} (hc : c.Mapped s) : c.Mapped t := by
  have hrange : ∀ ip off n, s.Mapped (s.icache ip).inum off n → t.Mapped (t.icache ip).inum off n := fun ip off n hm => by
    unfold Fs.Mapped
    rw [h.inum, h.blockAddr]
    exact hm
  cases c <;> exact hrange _ _ _ hc

theorem Fs.Overwritten.logs (h : s.Overwritten t) {c : Call} {b : Nat} (hc : c.Logs t b) : c.Logs s b := by
  cases c with
  | readi => exact hc
  | writei => simpa only [Call.Logs, h.inum, h.blockAddr, h.sb] using hc

theorem Fs.Overwritten.fit (h : s.Overwritten t) {cs : List Call} (hcs : Call.Fit s cs) : Call.Fit t cs := by
  obtain ⟨B, hB, hlt, hsize⟩ := hcs
  refine ⟨B, fun c hc => ?_, hlt, h.size ▸ hsize⟩
  obtain ⟨htarget, hmap, hlogs⟩ := hB c hc
  exact ⟨h.target htarget, h.mapped hmap, fun b hb => hlogs b (h.logs hb)⟩

theorem wp_writei_of_mapped {ip : InodePtr} {src : Bytes} {off n : UInt32} (hwf : s.Wf) (ht : s.Target ip)
    (hmap : s.Mapped (s.icache ip).inum off.toNat n.toNat) (hroom : s.log.HasRoom B)
    (hB : ∀ b, (Call.writei ip src off n).Logs s b → b ∈ B) :
    wp (writei ip src off n) (fun _ u => s.Overwritten u ∧ u.Wf ∧ u.log.HasRoom B) (fun _ => False) s := by
  have hall := Log.mayWriteAll_hasRoom (E := fun _ => False) B
  refine wp_writei_keeps (I := fun u => u.blockAddr = s.blockAddr ∧ u.log.size = s.log.size ∧ u.log.HasRoom B) hwf ht.caches
    (ht.allocated hwf) ht.type_ne.1 (fun u hu => hall.write _ hu.2.2) ⟨rfl, rfl, hroom⟩
    (fun _ => hmap.keeps fun u hu => hu.1) (fun _ u bn c hlo hhi hwfu hu hne => ?_)
    (fun _ => ⟨⟨.refl s, rfl, rfl⟩, hwf, hroom⟩) fun u hle hu hwfu hw => ?_
  · refine ⟨funext₂ fun j bm => (Fs.setLeaf_blockAddr hwfu hne c j bm).trans (by rw [hu.1]), hu.2.1, ?_⟩
    exact hall.absorb _ _ _ hu.2.2 (hB _ (.inr ⟨bn, ⟨hlo, hhi⟩, by rw [hu.1]⟩))
  · have hkeeps := Fs.Keeps.of_extend hw.toExtend
    have hipu := hw.caches ht.caches
    have hlog : (writeEnd u ip off.toNat n.toNat).log.size = s.log.size ∧
        (writeEnd u ip off.toNat n.toNat).log.HasRoom B := by
      unfold writeEnd
      split
      · unfold Fs.resize Fs.flush
        rw [Fs.setInode_icache_same]
        exact ⟨hu.2.1, hall.absorb _ _ _ hu.2.2 (hB _ (.inl (by rw [← hkeeps.sb, ← hkeeps.inum]; rfl)))⟩
      · exact hu.2
    exact ⟨⟨hkeeps.trans (.of_writeEnd u ip _ _), (writeEnd_blockAddr hwfu hipu hle).trans hu.1, hlog.1⟩,
      writeEnd_wf hwfu hipu hle, hlog.2⟩

theorem wp_exec_of_mapped {c : Call} (hwf : s.Wf) (ht : s.Target c.ip) (hmap : c.Mapped s) (hroom : s.log.HasRoom B)
    (hB : ∀ b, c.Logs s b → b ∈ B) :
    wp c.exec (fun _ u => s.Overwritten u ∧ u.Wf ∧ u.log.HasRoom B) (fun _ => False) s := by
  cases c with
  | readi ip off n =>
    have hshort : s.Mapped (s.icache ip).inum off.toNat
        (readLen (s.view (s.icache ip).inum).size.toNat off.toNat n.toNat) := fun p hle hlt =>
      hmap p hle (hlt.trans_le (Nat.add_le_add_left (Nat.min_le_left _ _) _))
    refine (wp_readi_of_mapped hwf ht.caches (ht.allocated hwf) ht.type_ne.1 hshort).mpr ?_
    exact ⟨⟨.refl s, rfl, rfl⟩, hwf, hroom⟩
  | writei ip src off n =>
    simp only [Call.exec, wp_bind, wp_pure]
    exact wp_writei_of_mapped hwf ht hmap hroom hB

theorem Fs.Overwritten.trans {u : Fs} (h : s.Overwritten t) (h' : t.Overwritten u) : s.Overwritten u :=
  ⟨h.toKeeps.trans h'.toKeeps, h'.blockAddr.trans h.blockAddr, h'.size.trans h.size⟩

theorem wp_execAll_of_mapped (cs : List Call) (s : Fs) (hwf : s.Wf) (hroom : s.log.HasRoom B)
    (hcs : ∀ c ∈ cs, s.Target c.ip ∧ c.Mapped s ∧ ∀ b, c.Logs s b → b ∈ B) :
    wp (Call.execAll cs) (fun _ u => s.Overwritten u ∧ u.Wf) (fun _ => False) s := by
  induction cs generalizing s with
  | nil => exact ⟨⟨.refl s, rfl, rfl⟩, hwf⟩
  | cons c cs ih =>
    obtain ⟨htarget, hmap, hlogs⟩ := hcs c List.mem_cons_self
    simp only [Call.execAll, wp_bind, wp_pure]
    refine (wp_exec_of_mapped hwf htarget hmap hroom hlogs).post fun _ t ht => ?_
    refine (ih t ht.2.1 ht.2.2 fun c' hc' => ?_).post fun _ u hu => ⟨ht.1.trans hu.1, hu.2⟩
    obtain ⟨htarget', hmap', hlogs'⟩ := hcs c' (List.mem_cons_of_mem _ hc')
    exact ⟨ht.1.target htarget', ht.1.mapped hmap', fun b hb => hlogs' b (ht.1.logs hb)⟩

theorem wp_transactions_of_mapped (ts : List (List Call)) (s : Fs) (hwf : s.Wf) (hlh : s.log.lh = [])
    (hout : s.log.outstanding = 0) (hts : ∀ cs ∈ ts, Call.Fit s cs) :
    wp (Call.transactions ts) (fun _ _ => True) (fun _ => False) s := by
  induction ts generalizing s with
  | nil => trivial
  | cons cs ts ih =>
    obtain ⟨B, hB, hlt, hsize⟩ := hts cs List.mem_cons_self
    have hroom : s.log.start.HasRoom B := by
      refine ⟨Nat.le_add_left 1 _, ?_, ?_⟩ <;> simpa [Log.start, hlh] using by assumption
    simp only [Call.transactions, wp_bind, wp_pure]
    refine wp_beginOp_of_room (by rw [hlh, hout]; decide) ?_
    refine (wp_execAll_of_mapped cs (s.setLog s.log.start) (hwf.setLog _) hroom hB).post fun _ t ht => ?_
    rw [wp_endOp]
    have houtt : t.log.outstanding = 1 := ht.1.outstanding.trans (congrArg (· + 1) hout)
    have hafter : s.Overwritten (t.setLog t.log.finish) := by
      refine ⟨⟨ht.1.sb, ?_, ht.1.head⟩, ht.1.blockAddr, ht.1.size⟩
      change t.log.outstanding - 1 = _
      rw [houtt, hout]
    refine (ih _ (ht.2.setLog _) ?_ ?_ fun cs' hcs' => hafter.fit (hts cs' (List.mem_cons_of_mem _ hcs'))).post fun _ _ _ => trivial
    · change (if t.log.outstanding - 1 = 0 then [] else t.log.lh) = []
      rw [if_pos (by rw [houtt])]
    · exact hafter.outstanding.trans hout

end Returning

/-- A refused `writei` changes nothing at all. -/
theorem writei_of_fails {s : Fs} {ip : InodePtr} (ht : s.Target ip) {src : Bytes} {off n : UInt32}
    (hfail : fileLimits.WriteFails off.toNat n.toNat) : writei ip src off n s = .ok (-1, s) := by
  have hmax : MAXFILE * BSIZE < 2 ^ 32 := by decide
  have hbad : off + n < off ∨ (off + n).toNat > MAXFILE * BSIZE := by
    have := n.toNat_lt
    have := off.toNat_lt
    simp only [UInt32.lt_iff_toNat_lt, UInt32.toNat_add]
    rcases hfail with h | h
    · simp only [fileLimits] at h
      left
      omega
    · simp only [fileLimits] at h
      omega
  suffices h : wp (writei ip src off n) (fun r t => r = -1 ∧ t = s) (fun _ => False) s by
    obtain ⟨r, t, hrun, rfl, rfl⟩ := h.run_ok
    exact hrun
  simp only [writei, wp_bind, wp_get, wp_deref, if_neg ht.type_ne.1]
  split
  · exact ⟨rfl, rfl⟩
  · next hwrap =>
    rw [if_pos (hbad.resolve_left hwrap)]
    exact ⟨rfl, rfl⟩

/-- Files refine byte arrays: over any transactions of `readi` and `writei` calls
    the replies and the final files are those of the abstract calls, every read
    returns what was written last, and a refused write changes nothing. The run
    can only stop because the log or the disk is full; it does not where calls meet no
    holes and the log has room for what they write. -/
theorem transactions_refine_files (s : Fs) (hwf : s.Wf) (ts : List (List Call))
    (hts : ∀ cs ∈ ts, ∀ c ∈ cs, s.Target c.ip) :
    wp (Call.transactions ts) (fun rs s' =>
      s'.Wf ∧ (∀ ip, s.Target ip → s'.Target ip) ∧
      (rs, s'.file) = FileOp.run fileLimits s.file (ts.flatten.map (·.op s)) ∧
      (∀ k i off n, (ts.flatten.map (·.op s))[k]? = some (.read i off n) →
        rs[k]? = some
          (FileOp.readReply fileLimits s.file ((ts.flatten.map (·.op s)).take k) i off n)) ∧
      (∀ i, (s.file i).Clean → (s'.file i).Clean ∧ ∀ p, (s.file i).size ≤ p →
        FileOp.lastWritten fileLimits i p (ts.flatten.map (·.op s)) = none →
          (s'.file i).byte p = 0) ∧
      ∀ ip src off n, s'.Target ip → fileLimits.WriteFails off.toNat n.toNat →
        writei ip src off n s' = .ok (-1, s'))
      LogOrDiskFull s ∧
    (s.log.lh = [] → s.log.outstanding = 0 → (∀ cs ∈ ts, Call.Fit s cs) →
      ∃ rs s', Call.transactions ts s = .ok (rs, s')) := by
  refine ⟨(wp_transactions ts s hwf hts).post ?_, fun hlh hout hfit => ?_⟩
  · rintro rs s' ⟨hwf', htargets, heq⟩
    obtain ⟨hreplies, hfiles⟩ := Prod.mk.inj heq
    refine ⟨hwf', htargets, heq, ?_, ?_, fun ip src off n ht hfail => writei_of_fails ht hfail⟩
    · intro k i off n hk
      rw [hreplies]
      exact FileOp.run_read hk
    · intro i hclean
      rw [hfiles]
      exact ⟨FileOp.run_clean _ hclean, fun p hp hnone => FileOp.run_hole _ hclean hp hnone⟩
  · obtain ⟨rs, s', hrun, -⟩ := (wp_transactions_of_mapped ts s hwf hlh hout hfit).run_ok
    exact ⟨rs, s', hrun⟩

/-- The five bytes at 600 are there, and the log is empty. -/
def Fs.Rewritable (s : Fs) : Prop :=
  s.log.lh = [] ∧ s.log.outstanding = 0 ∧ s.log.size = LOGSIZE ∧ (s.icache 0).inum = 1 ∧ s.blockAddr 1 0 ≠ 0 ∧
    s.blockAddr 1 1 ≠ 0

instance (s : Fs) : Decidable s.Rewritable := inferInstanceAs (Decidable (_ ∧ _))

theorem Fs.Rewritable.fit {s : Fs} (h : s.Rewritable) (ht : s.Target 0) (src : Bytes) :
    Call.Fit s [.writei 0 src 600 5, .readi 0 0 605] := by
  obtain ⟨-, -, hsize, hinum, hfirst, hsecond⟩ := h
  have hmap : ∀ off n, off + n ≤ 605 → s.Mapped 1 off n := fun off n hle p _ hlt => by
    have hp : p / BSIZE = 0 ∨ p / BSIZE = 1 := by
      unfold BSIZE
      omega
    rcases hp with hp | hp <;> rwa [hp]
  have hcard := Finset.card_le_two (a := s.sb.IBLOCK 1) (b := (s.blockAddr 1 1).toNat)
  refine ⟨{s.sb.IBLOCK 1, (s.blockAddr 1 1).toNat}, fun c hc => ?_, hcard.trans_lt (by decide), ?_⟩
  · obtain rfl | rfl : c = .writei 0 src 600 5 ∨ c = .readi 0 0 605 := by simpa using hc
    · refine ⟨ht, (hinum ▸ hmap 600 5 le_rfl :), fun b hb => ?_⟩
      rcases hb with rfl | ⟨bn, ⟨hlo, hhi⟩, rfl⟩
      · rw [hinum]
        exact Finset.mem_insert_self _ _
      · obtain rfl : bn = 1 := by
          simp only [BSIZE, UInt32.reduceToNat] at hlo hhi
          omega
        rw [hinum]
        exact Finset.mem_insert_of_mem (Finset.mem_singleton_self _)
    · exact ⟨ht, (hinum ▸ hmap 0 605 le_rfl :), fun b hb => hb.elim⟩
  · rw [hsize]
    exact hcard.trans_lt (by decide)

/-- Writing past the end of an empty file, reading the hole back, and writing again. -/
theorem transactions_refine_files_hole : ∃ rs s' rs' u,
    Call.transactions [[.writei 0 (fun _ => 7) 600 5], [.readi 0 0 605]] (image emptyFile) = .ok (rs, s') ∧
    (rs, s'.file) = FileOp.run fileLimits (image emptyFile).file [.write 1 600 5 (fun _ => 7), .read 1 0 605] ∧
    Call.transactions [[.writei 0 (fun _ => 8) 600 5, .readi 0 0 605]] s' = .ok (rs', u) := by
  have hret : (Call.transactions [[.writei 0 (fun _ => 7) 600 5], [.readi 0 0 605]]).returns (image emptyFile)
      (fun _ t => t.Rewritable) = true := by
    decide +kernel
  obtain ⟨rs, s', hrun, hs'⟩ := exists_of_returns hret
  have hagain := of_decide_eq_true hs'
  -- the disk becomes a variable, or elaboration would run the calls again
  have hwf : (image emptyFile).Wf := image_wf rfl (Nat.zero_le _)
  have htarget : (image emptyFile).Target 0 := ⟨by decide, by decide, .inl rfl⟩
  have hinum : ((image emptyFile).icache 0).inum = 1 := rfl
  clear hret hs'
  generalize image emptyFile = s at *
  obtain ⟨hwf', htargets, hfiles, -⟩ :=
    (transactions_refine_files s hwf _ (by simpa [Call.ip] using htarget)).1.of_run hrun
  have htarget' := htargets 0 htarget
  have hfit := hagain.fit htarget' fun _ => 8
  obtain ⟨rs', u, hrun'⟩ := (transactions_refine_files s' hwf' [[.writei 0 (fun _ => 8) 600 5, .readi 0 0 605]]
    (by simpa [Call.ip] using htarget')).2 hagain.1 hagain.2.1 (by simpa using hfit)
  exact ⟨rs, s', rs', u, hrun, by simpa [Call.op, hinum] using hfiles, hrun'⟩

end Xv6
