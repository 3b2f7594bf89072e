-- SUMMARY: Every block that a file-system call changes is passed to log_write, in transactions that are ended.
import Xv6.Disk.Recovery
import Xv6.FileSystem.WriteThrough

/-! # What reaches the log

Code of the file system changes a buffer only right before it passes the block to
`log_write`. So the blocks that a call has logged, with their contents at the time, are
all that it changes on the disk. That a function does so is an instance of `Goes`, which is
found from the instances for the functions that it calls.
-/

namespace Xv6

open Prog Journal

/-- From `s` to `t` the blocks of `us` were logged, with these contents, and nothing else
    has changed on the disk. -/
structure Fs.Updated (s t : Fs) (us : List Update) : Prop where
  disk : t.disk = replay s.disk us
  writes : t.log.writes = us.reverse ++ s.log.writes

/-- `m` takes `i` open transactions to `j`, and logs what it changes. -/
class Goes {α : Type} (i j : Nat) (m : FS α) : Prop where
  run : ∀ s, s.log.outstanding = i →
    wp m (fun _ t => t.log.outstanding = j ∧ ∃ us, s.Updated t us) (fun _ => True) s

theorem Fs.Updated.trans {s t u : Fs} {us vs : List Update} (h : s.Updated t us) (h' : t.Updated u vs) :
    s.Updated u (us ++ vs) := by
  refine ⟨?_, ?_⟩
  · rw [h'.disk, h.disk, replay_append]
  · rw [h'.writes, h.writes, List.reverse_append, List.append_assoc]

namespace Goes

section Rules

variable {α β : Type} {i j k b : Nat} {m : FS α} {f : α → FS β}

theorem bind (hm : Goes i j m) (hf : ∀ a, Goes j k (f a)) : Goes i k (m >>= f) where
  run := fun s hs => by
    rw [wp_bind]
    refine (hm.run s hs).post fun a t ht => ?_
    obtain ⟨hj, us, hus⟩ := ht
    refine ((hf a).run t hj).post fun _ u hu => ?_
    obtain ⟨hk, vs, hvs⟩ := hu
    exact ⟨hk, _, hus.trans hvs⟩

instance ret (a : α) : Goes i i (pure a : FS α) := ⟨fun _ hs => ⟨hs, [], rfl, rfl⟩⟩

instance stops (e : Stop) : Goes i j (throw e : FS α) := ⟨fun _ _ => trivial⟩

instance read : Goes i i (get : FS Fs) := ⟨fun _ hs => ⟨hs, [], rfl, rfl⟩⟩

theorem andThen [hm : Goes i i m] (hf : ∀ a, Goes i j (f a)) : Goes i j (m >>= f) := bind hm hf

instance seq [Goes i i m] [hf : ∀ a, Goes i j (f a)] : Goes i j (m >>= f) := andThen hf

instance (priority := high) seqOption {m : FS (Option α)} {f : Option α → FS β} [hm : Goes i i m] [h₀ : Goes i j (f none)]
    [h₁ : ∀ a, Goes i j (f (some a))] : Goes i j (m >>= f) :=
  bind hm fun r => r.rec h₀ h₁

instance (priority := high) seqPair {γ : Type} {m : FS (Option (α × γ))} {f : Option (α × γ) → FS β} [hm : Goes i i m]
    [h₀ : Goes i j (f none)] [h₁ : ∀ a c, Goes i j (f (some (a, c)))] : Goes i j (m >>= f) :=
  bind hm fun r => r.rec h₀ fun x => h₁ x.1 x.2

instance cond {c : Prop} [Decidable c] {n : FS α} [Goes i j m] [Goes i j n] : Goes i j (if c then m else n) := by
  split <;> infer_instance

instance bread_goes : Goes i i (bread b) := by unfold bread; infer_instance

instance deref_goes {ip : InodePtr} : Goes i i (deref ip) := by unfold deref; infer_instance

instance imodify_goes {ip : InodePtr} {g : Inode → Inode} : Goes i i (imodify ip g) := ⟨fun _ hs => ⟨hs, [], rfl, rfl⟩⟩

/-- A buffer is changed and logged. -/
instance store {g : Bytes → Bytes} : Goes i i (bmodify b g >>= fun _ => logWrite b) where
  run := fun s hs => by
    simp only [wp_bind, wp_bmodify, logWrite, wp_get, wp_ite, wp_throw, wp_set]
    refine ⟨fun _ => trivial, fun _ => ⟨fun _ => trivial, fun _ => ⟨hs, [(b, g (s.disk b))], rfl, ?_⟩⟩⟩
    rw [Fs.setBlock_disk_same]
    rfl

instance storeSeq {g : Bytes → Bytes} {n : Unit → FS α} [h : ∀ x, Goes i j (n x)] :
    Goes i j (bmodify b g >>= fun _ => logWrite b >>= n) := by
  rw [← bind_assoc]
  exact bind store h

instance begins {n : Unit → FS α} [h : ∀ x, Goes 1 j (n x)] : Goes 0 j (beginOp >>= n) := by
  refine bind ⟨fun s hs => ?_⟩ h
  simp only [beginOp, wp_bind, wp_get, wp_ite, wp_throw, wp_set]
  exact ⟨fun _ => trivial, fun _ => ⟨by rw [hs], [], rfl, rfl⟩⟩

instance ends : Goes 1 0 endOp where
  run := fun s hs => by
    simp only [endOp, wp_bind, wp_get, wp_ite, wp_set, hs]
    exact ⟨fun _ => ⟨trivial, [], rfl, rfl⟩, fun h => absurd trivial h⟩

instance endsSeq {n : Unit → FS α} [h : ∀ x, Goes 0 0 (n x)] : Goes 1 0 (endOp >>= n) := bind ends h

theorem forM {xs : List β} {g : β → FS Unit} (h : ∀ x, Goes i i (g x)) : Goes i i (xs.forM g) := by
  induction xs with
  | nil => exact inferInstanceAs (Goes i i (pure ()))
  | cons x xs ih => exact bind (h x) fun _ => ih

end Rules

section Functions

variable {i n off fuel tot : Nat} {ip dp : InodePtr} {name path : List UInt8} {type : Int16}

instance bzero_goes : Goes i i (bzero n) := by unfold bzero; infer_instance

instance ballocFrom_goes {bs : List Nat} : Goes i i (ballocFrom bs) := by
  induction bs with
  | nil => unfold ballocFrom; infer_instance
  | cons b bs ih =>
    refine andThen fun s => andThen fun bp => ?_
    cases ballocScan s.sb bp b <;> unfold ballocTake <;> infer_instance

instance balloc_goes : Goes i i balloc := by unfold balloc; infer_instance

instance bfree_goes : Goes i i (bfree n) := by
  have hsb : Goes i i readsb := by unfold readsb; infer_instance
  have hset : ∀ sb, Goes i i (modify fun s : Fs => { s with sb := sb } : FS Unit) := fun _ =>
    ⟨fun _ hs => ⟨hs, [], rfl, rfl⟩⟩
  unfold bfree
  infer_instance

instance loadAddr_goes {k : Fin NADDRS} : Goes i i (loadAddr ip k) := by unfold loadAddr; infer_instance

instance loadEntry_goes {a : UInt32} : Goes i i (loadEntry a n) := by unfold loadEntry; infer_instance

instance bmap_goes : Goes i i (bmap ip n) := by
  unfold bmap
  split <;> infer_instance

instance iupdate_goes : Goes i i (iupdate ip) := by unfold iupdate; infer_instance

instance iget_goes : Goes i i (iget n) := by
  refine andThen fun s => ?_
  split
  · infer_instance
  · split <;> infer_instance

instance iallocFrom_goes {l : List Nat} : Goes i i (iallocFrom type l) := by
  induction l <;> unfold iallocFrom <;> infer_instance

instance ialloc_goes : Goes i i (ialloc type) := by unfold ialloc; infer_instance

instance ilock_goes : Goes i i (ilock ip) := by unfold ilock; infer_instance

instance iunlock_goes : Goes i i (iunlock ip) := by unfold iunlock; infer_instance

instance forEntries_goes {a : UInt32} {f : UInt32 → FS Unit} [∀ x, Goes i i (f x)] : Goes i i (forEntries a f) :=
  andThen fun _ => forM fun _ => inferInstance

instance truncAddr_goes {k : Fin NADDRS} {f : UInt32 → FS Unit} [∀ x, Goes i i (f x)] : Goes i i (truncAddr ip k f) := by
  unfold truncAddr
  infer_instance

instance itrunc_goes : Goes i i (itrunc ip) :=
  bind (forM fun _ => inferInstance) fun _ => andThen fun _ => andThen fun _ => andThen fun _ => inferInstance

instance iput_goes : Goes i i (iput ip) := by
  unfold iput
  dsimp only
  refine andThen fun x => ?_
  split
  · infer_instance
  · refine andThen fun _ => ?_
    split <;> infer_instance

instance iunlockput_goes : Goes i i (iunlockput ip) := by unfold iunlockput; infer_instance

instance readLoop_goes : Goes i i (readLoop ip n fuel tot off) := by
  induction fuel generalizing tot off <;> unfold readLoop <;> infer_instance

instance readi_goes {o c : UInt32} : Goes i i (readi ip o c) := by
  refine andThen fun s => andThen fun x => ?_
  repeat' split
  all_goals infer_instance

instance writeLoop_goes {src : Bytes} : Goes i i (writeLoop ip src n fuel tot off) := by
  induction fuel generalizing tot off <;> unfold writeLoop <;> infer_instance

instance writei_goes {src : Bytes} {o c : UInt32} : Goes i i (writei ip src o c) := by
  refine andThen fun s => andThen fun x => ?_
  repeat' split
  all_goals infer_instance

instance dirlookupLoop_goes : Goes i i (dirlookupLoop dp name fuel off) := by
  induction fuel generalizing off <;> unfold dirlookupLoop <;> infer_instance

instance dirlookup_goes : Goes i i (dirlookup dp name) := by unfold dirlookup; infer_instance

instance dirlinkLoop_goes : Goes i i (dirlinkLoop dp fuel off) := by
  induction fuel generalizing off <;> unfold dirlinkLoop <;> infer_instance

instance dirlink_goes : Goes i i (dirlink dp name n) := by unfold dirlink; infer_instance

instance namexLoop_goes {parent : Bool} : Goes i i (namexLoop parent fuel ip path) := by
  induction fuel generalizing ip path with
  | zero => unfold namexLoop; infer_instance
  | succ fuel ih =>
    unfold namexLoop
    split <;> infer_instance

instance namex_goes {parent : Bool} : Goes i i (namex ip path parent) := by
  unfold namex idup
  infer_instance

instance namei_goes : Goes i i (namei ip path) := by unfold namei; infer_instance

instance nameiparent_goes : Goes i i (nameiparent ip path) := by unfold nameiparent; infer_instance

instance isdiremptyLoop_goes : Goes i i (isdiremptyLoop dp fuel off) := by
  induction fuel generalizing off <;> unfold isdiremptyLoop <;> infer_instance

instance createLink_goes : Goes i i (createLink dp ip name type) := by
  unfold createLink
  dsimp only
  refine andThen fun x => ?_
  split
  · refine andThen fun _ => andThen fun _ => andThen fun r => ?_
    split
    · infer_instance
    · exact andThen fun y => inferInstance
  · infer_instance

instance create_goes {major minor : Int16} : Goes i i (create ip path type major minor) := by
  unfold create
  refine andThen fun r => ?_
  cases r with
  | none => infer_instance
  | some x => exact andThen fun _ => andThen fun r => by cases r <;> infer_instance

end Functions

section Calls

variable {ip dp cwd : InodePtr} {path : List UInt8}

instance linkBad_goes : Goes 1 0 (linkBad ip) := by unfold linkBad; infer_instance

instance unlinkBad_goes : Goes 1 0 (unlinkBad dp) := by unfold unlinkBad; infer_instance

instance unlinkEntry_goes {off : Nat} : Goes 1 0 (unlinkEntry dp ip off) := by
  unfold unlinkEntry
  dsimp only
  refine andThen fun r => ?_
  split
  · infer_instance
  · refine andThen fun x => ?_
    split
    · exact andThen fun _ => andThen fun _ => inferInstance
    · infer_instance

instance sysLink_goes {old new : List UInt8} : Goes 0 0 (sysLink cwd old new) := by
  unfold sysLink
  refine @begins _ _ _ fun _ => andThen fun r => ?_
  cases r with
  | none => infer_instance
  | some ip =>
    refine andThen fun _ => andThen fun x => ?_
    split
    · infer_instance
    · exact andThen fun _ => andThen fun _ => andThen fun _ => inferInstance

instance sysUnlink_goes : Goes 0 0 (sysUnlink cwd path) := by
  unfold sysUnlink isdirempty
  refine @begins _ _ _ fun _ => andThen fun r => ?_
  cases r with
  | none => infer_instance
  | some x =>
    refine andThen fun _ => ?_
    split
    · infer_instance
    · refine andThen fun r => ?_
      cases r with
      | none => infer_instance
      | some y => exact andThen fun _ => andThen fun _ => inferInstance

instance sysOpen_goes {omode : UInt32} {room : Bool} : Goes 0 0 (sysOpen cwd path omode room) := by
  unfold sysOpen openInode
  infer_instance

instance sysMake_goes {type major minor : Int16} : Goes 0 0 (sysMake cwd path type major minor) := by unfold sysMake; infer_instance

instance sysChdir_goes : Goes 0 0 (sysChdir cwd path) := by
  unfold sysChdir
  refine @begins _ _ _ fun _ => andThen fun r => ?_
  cases r <;> infer_instance

instance writeChunk_goes {src : Bytes} {off : UInt32} {n : Nat} : Goes 0 0 (writeChunk ip src off n) := by
  unfold writeChunk
  infer_instance

instance filewriteLoop_goes {addr : Bytes} {n fuel i : Nat} {f : OpenFile} : Goes 0 0 (filewriteLoop addr n fuel i f) := by
  induction fuel generalizing i f <;> unfold filewriteLoop <;> infer_instance

instance pfilewriteLoop_goes {addr : Bytes} {n fuel i : Nat} {off : UInt32} : Goes 0 0 (pfilewriteLoop ip addr n off fuel i) := by
  induction fuel generalizing i <;> unfold pfilewriteLoop <;> infer_instance

instance filewrite_goes {f addr n} : Goes 0 0 (filewrite f addr n) := by
  unfold filewrite
  generalize f.type = k
  cases k <;> infer_instance

instance pfilewrite_goes {f addr n off} : Goes 0 0 (pfilewrite f addr n off) := by
  unfold pfilewrite
  generalize f.type = k
  cases k <;> infer_instance

instance writeCall_goes (c : WriteCall) : Goes 0 0 c.exec := by
  cases c <;> dsimp only [WriteCall.exec] <;> infer_instance

instance fileclose_goes (f : OpenFile) : Goes 0 0 (fileclose f) := by
  unfold fileclose
  generalize f.type = k
  cases k <;> infer_instance

end Calls

end Goes

variable {s t : Fs} {o o' : Own}

theorem FsCall.Does.updated {c : FsCall} (h : c.Does s t o o') (hs : s.log.outstanding = 0) :
    t.log.outstanding = 0 ∧ ∃ us, s.Updated t us := by
  have hrun : ∀ {α : Type} {m : FS α} {r : α} [Goes 0 0 m], m s = .ok (r, t) →
      t.log.outstanding = 0 ∧ ∃ us, s.Updated t us := fun {_ _ _ hm} heq => (hm.run s hs).of_run heq
  cases h with
  | sysOpen _ h | sysMake _ h | sysLink _ h | sysUnlink _ h | sysChdir _ h | write _ h | otherClose _ h => exact hrun h
  | lastClose _ _ _ h => exact hrun h

/-- Between calls no transaction is open, whatever they return: each of them ends the ones that it
    begins. And all that calls change on the disk is what they have passed to `log_write`. -/
theorem calls_log_changes {Ok : Fs → FsCall → Prop} (h : FsRun Ok s o t o') (hs : s.log.outstanding = 0) :
    t.log.outstanding = 0 ∧ ∃ us, s.Updated t us := by
  induction h with
  | refl => exact ⟨hs, [], rfl, rfl⟩
  | step _ c _ hdoes ih =>
    obtain ⟨hout, us, hus⟩ := ih
    obtain ⟨hout', vs, hvs⟩ := hdoes.updated hout
    exact ⟨hout', _, hus.trans hvs⟩

/-- `open("a", O_CREATE | O_RDWR)` in an empty file system. -/
theorem exists_created : ∃ t o', FsCall.Does (image emptyDirectory) t (Own.none.hold 0)
    (.sysOpen 0 [97] (O_CREATE ||| O_RDWR) true) o' ∧ t.log.trace = [32, 68, 68, 58, 32, 32] := by
  have hrun : (sysOpen 0 [97] (O_CREATE ||| O_RDWR) true).returns (image emptyDirectory) (fun _ t =>
      t.log.trace == [32, 68, 68, 58, 32, 32]) = true := by
    decide +kernel
  obtain ⟨r, t, hopen, htrace⟩ := exists_of_returns hrun
  exact ⟨t, _, .sysOpen (by decide) hopen, beq_iff_eq.mp htrace⟩

/-- Before the first call nothing has been logged. -/
theorem Fs.Updated.eq_writes {us : List Update} (h : s.Updated t us) (hs : s.log.writes = []) :
    us = t.log.writes.reverse := by
  rw [h.writes, hs, List.append_nil, List.reverse_reverse]

theorem creation_logs_changes : ∃ t : Fs, t.disk = replay (image emptyDirectory).disk t.log.writes.reverse ∧
    t.log.trace = [32, 68, 68, 58, 32, 32] ∧ t.log.outstanding = 0 := by
  obtain ⟨t, o', hdoes, htrace⟩ := exists_created
  have hrun : FsRun (fun _ _ => True) (image emptyDirectory) (Own.none.hold 0) t o' := .step .refl _ trivial hdoes
  obtain ⟨hout, us, hus⟩ := calls_log_changes hrun rfl
  exact ⟨t, hus.eq_writes rfl ▸ hus.disk, htrace, hout⟩

end Xv6
