-- SUMMARY: The invariant of the directory layer, and the moves between states that keep it.
import Xv6.FileSystem.Directory
import Xv6.FileSystem.FileCalls

/-! # The invariant of the directory layer

`Fs.Tidy` adds to the invariant of the inode layer what the directory code relies
on: directories have no holes, their entries name inodes that exist, and what
memory says of a directory is what the disk says of it. Since a directory without
holes is read without any allocation, lookups change nothing.

A system call takes and drops references to inodes. `Own` counts the references
that the running call holds, and `Fs.Step s t o o' l` says what a piece of it does:
the references go from `o` to `o'`, and only blocks of `l` are passed to
`log_write`.
-/

namespace Xv6

open Prog

namespace Fs

/-! ## Directories -/

/-- File `i` has no holes. -/
def Solid (s : Fs) (i : Nat) : Prop :=
  ∀ bn, bn * BSIZE < (s.view i).size.toNat → s.blockAddr i bn ≠ 0

/-- Entry `k` of directory `i`. -/
def entry (s : Fs) (i k : Nat) : Dirent :=
  Dirent.ofBytes ((s.byte i).slice (k * DIRENTSIZE) DIRENTSIZE)

/-- The entries of directory `i` name inodes that exist. -/
def Named (s : Fs) (i : Nat) : Prop :=
  ∀ k, (k + 1) * DIRENTSIZE ≤ (s.view i).size.toNat → (s.entry i k).inum.toNat < s.sb.ninodes

/-- What is in memory of inodes with types in `P` is on disk, too. -/
def Agree (s : Fs) (P : Int16 → Prop) : Prop :=
  ∀ ip, s.Loaded ip → P (s.icache ip).type → s.dinode (s.icache ip).inum = (s.icache ip).toDinode

structure Tidy (s : Fs) : Prop extends Inv s where
  dirs : ∀ i, s.Allocated i → (s.view i).type = T_DIR → s.Solid i ∧ s.Named i
  agree : s.Agree (· = T_DIR)
  nlink : ∀ ip, s.Loaded ip → (s.dinode (s.icache ip).inum).nlink = (s.icache ip).nlink
  root : ROOTINO < s.sb.ninodes

theorem SameFile.solid {s t : Fs} {i : Nat} (h : SameFile s t i) (hs : s.Solid i) : t.Solid i := by
  unfold Solid
  rw [h.size, h.blockAddr]
  exact hs

theorem SameFile.named {s t : Fs} {i : Nat} (h : SameFile s t i) (hsb : t.sb = s.sb) (hs : s.Named i) :
    t.Named i := by
  unfold Named entry
  rw [h.size, h.byte, hsb]
  exact hs

/-- Every directory is as before, or is seen to. -/
theorem Tidy.of {s t : Fs} (h : s.Tidy) (hinv : t.Inv) (hsb : t.sb = s.sb)
    (hdirs : ∀ i, t.Allocated i → (t.view i).type = T_DIR → SameFile s t i ∨ (t.Solid i ∧ t.Named i))
    (hagree : t.Agree (· = T_DIR))
    (hnlink : ∀ ip, t.Loaded ip → (t.dinode (t.icache ip).inum).nlink = (t.icache ip).nlink) : t.Tidy := by
  refine ⟨hinv, fun i hal htype => ?_, hagree, hnlink, hsb ▸ h.root⟩
  rcases hdirs i hal htype with hsame | hok
  · have hdir := hsame.type ▸ htype
    obtain ⟨hsolid, hnamed⟩ := h.dirs i ⟨hsb ▸ hal.1, by rw [hdir]; decide⟩ hdir
    exact ⟨hsame.solid hsolid, hsame.named hsb hnamed⟩
  · exact hok

end Fs

/-! ## References held by a call -/

/-- How many references to each entry the running system call holds. -/
abbrev Own := InodePtr → Nat

namespace Own

def none : Own := fun _ => 0

/-- One more reference to `ip`. -/
def hold (o : Own) (ip : InodePtr) : Own := fun jp => if jp = ip then o jp + 1 else o jp

variable (o : Own) (ip : InodePtr)

theorem hold_same : o.hold ip ip = o ip + 1 := if_pos rfl

theorem hold_ne {jp : InodePtr} (h : jp ≠ ip) : o.hold ip jp = o jp := if_neg h

theorem hold_pos : 0 < o.hold ip ip := by
  rw [hold_same]
  exact Nat.succ_pos _

theorem le_hold (jp : InodePtr) : o jp ≤ o.hold ip jp := by
  unfold hold
  split
  · exact Nat.le_succ _
  · exact le_rfl

theorem hold_comm (jp : InodePtr) : (o.hold ip).hold jp = (o.hold jp).hold ip := by
  funext kp
  unfold hold
  split <;> split <;> rfl

end Own

namespace Fs

/-- The references of the running call are there. -/
def Covered (s : Fs) (o : Own) : Prop := ∀ jp, (o jp : Int) ≤ (s.icache jp).ref

/-- Somebody else holds every inode that has no link. -/
def Backed (s : Fs) (o : Own) : Prop :=
  ∀ i, s.Allocated i → (s.view i).nlink = 0 → ∃ jp, s.Caches jp i ∧ (o jp : Int) < (s.icache jp).ref

/-- From `s` to `t` only blocks of `l` were passed to `log_write`. -/
def Logs (s t : Fs) (l : List Nat) : Prop := ∃ ds, t.log.trace = ds ++ s.log.trace ∧ ds ⊆ l

theorem Logs.of_eq {s t : Fs} (h : t.log.trace = s.log.trace) (l : List Nat) : s.Logs t l :=
  ⟨[], h, List.nil_subset _⟩

theorem Logs.trans {s t u : Fs} {l l' : List Nat} (h : s.Logs t l) (h' : t.Logs u l') :
    s.Logs u (l ++ l') := by
  obtain ⟨ds, htrace, hds⟩ := h
  obtain ⟨ds', htrace', hds'⟩ := h'
  refine ⟨ds' ++ ds, by rw [htrace', htrace, List.append_assoc], ?_⟩
  exact List.append_subset.mpr ⟨List.Subset.trans hds' (List.subset_append_right _ _),
    List.Subset.trans hds (List.subset_append_left _ _)⟩

theorem Logs.mono {s t : Fs} {l l' : List Nat} (h : s.Logs t l) (hl : l ⊆ l') : s.Logs t l' := by
  obtain ⟨ds, htrace, hds⟩ := h
  exact ⟨ds, htrace, List.Subset.trans hds hl⟩

/-- Entries that the call holds stay as they are, up to references and locks. -/
def Entries (o : Own) (s t : Fs) : Prop :=
  ∀ jp, 0 < o jp → (t.icache jp).inum = (s.icache jp).inum ∧ ((s.icache jp).valid = true →
    (t.icache jp).valid = true ∧ (t.icache jp).toDinode = (s.icache jp).toDinode)

theorem Entries.trans {o : Own} {s t u : Fs} (h : Entries o s t) (h' : Entries o t u) : Entries o s u := by
  intro jp hjp
  refine ⟨(h' jp hjp).1.trans (h jp hjp).1, fun hvalid => ?_⟩
  obtain ⟨hvalid', hd⟩ := (h jp hjp).2 hvalid
  obtain ⟨hvalid'', hd'⟩ := (h' jp hjp).2 hvalid'
  exact ⟨hvalid'', hd'.trans hd⟩

/-- Inode `i` has the same type and links in both states, and a directory the same
    contents. -/
structure SameInode (s t : Fs) (i : Nat) : Prop where
  allocated : s.Allocated i
  type : (t.view i).type = (s.view i).type
  nlink : (t.view i).nlink = (s.view i).nlink
  dir : (t.view i).type = T_DIR → SameFile s t i

/-- What a call that changes no inode leaves: the entries that the caller holds, all
    inodes, and no new nodes of block trees. -/
structure Steady (o : Own) (s t : Fs) : Prop where
  entry : Entries o s t
  inode : ∀ i, t.Allocated i → SameInode s t i
  node : ∀ k js, blockShape.Path k js → t.forest.node k js ≠ 0 →
    t.forest.node k js = s.forest.node k js

theorem SameFile.trans {s t u : Fs} {i : Nat} (h : SameFile s t i) (h' : SameFile t u i) : SameFile s u i :=
  ⟨h'.type.trans h.type, h'.size.trans h.size, h'.blockAddr.trans h.blockAddr, h'.byte.trans h.byte⟩

theorem Same.inode {s t : Fs} {i : Nat} (h : Same s t) (hal : t.Allocated i) : SameInode s t i := by
  refine ⟨?_, by rw [h.view], by rw [h.view], fun _ => h.sameFile i⟩
  unfold Allocated at *
  rw [← h.view, ← h.sb]
  exact hal

theorem Steady.refl (o : Own) (s : Fs) : Steady o s s :=
  ⟨fun _ _ => ⟨rfl, fun h => ⟨h, rfl⟩⟩, fun _ => (Same.refl s).inode, fun _ _ _ _ => rfl⟩

/-- Only entries change. -/
theorem Steady.of_same {o : Own} {s t : Fs} (h : Same s t) (hentry : Entries o s t) : Steady o s t :=
  ⟨hentry, fun _ => h.inode, fun _ _ _ _ => by rw [h.forest]⟩

theorem Steady.trans {o : Own} {s t u : Fs} (h : Steady o s t) (h' : Steady o t u) : Steady o s u := by
  refine ⟨h.entry.trans h'.entry, fun i hal => ?_, fun k js hp hne => ?_⟩
  · have hu := h'.inode i hal
    have ht := h.inode i hu.allocated
    exact ⟨ht.allocated, hu.type.trans ht.type, hu.nlink.trans ht.nlink,
      fun hdir => (ht.dir (hu.type ▸ hdir)).trans (hu.dir hdir)⟩
  · have heq := h'.node k js hp hne
    rw [heq, h.node k js hp (heq ▸ hne)]

theorem Steady.mono {o o' : Own} {s t : Fs} (h : Steady o' s t) (ho : ∀ jp, o jp ≤ o' jp) : Steady o s t :=
  ⟨fun jp hjp => h.entry jp (hjp.trans_le (ho jp)), h.inode, h.node⟩

/-- The same but for the contents of one entry. -/
def SteadyBut (ip : InodePtr) (o : Own) (s t : Fs) : Prop :=
  ∀ jp, 0 < o jp → (t.icache jp).inum = (s.icache jp).inum ∧ ((s.icache jp).valid = true →
    (t.icache jp).valid = true ∧ (jp ≠ ip → (t.icache jp).toDinode = (s.icache jp).toDinode))

theorem Steady.but {o : Own} {s t : Fs} (h : Steady o s t) (ip : InodePtr) : SteadyBut ip o s t :=
  fun jp hjp => ⟨(h.entry jp hjp).1, fun hv =>
    ⟨((h.entry jp hjp).2 hv).1, fun _ => ((h.entry jp hjp).2 hv).2⟩⟩

/-- A piece of a system call: its references go from `o` to `o'`, and those of others
    stay. Assuming `A`, and unless it drops the last reference to an inode without
    links, it logs blocks of `l`. -/
structure Step (A : Prop) (s t : Fs) (o o' : Own) (l : List Nat) : Prop where
  tidy : t.Tidy
  sb : t.sb = s.sb
  refs : ∀ jp, (t.icache jp).ref - o' jp = (s.icache jp).ref - o jp
  agree : ∀ P, s.Agree P → t.Agree P
  backed : A → s.Backed o → t.Backed o'
  logs : A → s.Backed o → s.Logs t l

theorem Step.refl {A : Prop} {s : Fs} {o : Own} (h : s.Tidy) : Step A s s o o [] :=
  ⟨h, rfl, fun _ => rfl, fun _ h => h, fun _ h => h, fun _ _ => .of_eq rfl []⟩

theorem Step.trans {A : Prop} {s t u : Fs} {o o' o'' : Own} {l l' : List Nat} (h : Step A s t o o' l)
    (h' : Step A t u o' o'' l') : Step A s u o o'' (l ++ l') where
  tidy := h'.tidy
  sb := h'.sb.trans h.sb
  refs := fun jp => (h'.refs jp).trans (h.refs jp)
  agree := fun P hP => h'.agree P (h.agree P hP)
  backed := fun ha hb => h'.backed ha (h.backed ha hb)
  logs := fun ha hb => (h.logs ha hb).trans (h'.logs ha (h.backed ha hb))

theorem Step.mono {A : Prop} {s t : Fs} {o o' : Own} {l l' : List Nat} (h : Step A s t o o' l) (hl : l ⊆ l') :
    Step A s t o o' l' := { h with logs := fun ha hb => (h.logs ha hb).mono hl }

theorem Step.covered {A : Prop} {s t : Fs} {o o' : Own} {l : List Nat} (h : Step A s t o o' l) (hc : s.Covered o) :
    t.Covered o' := fun jp => by
  have := hc jp
  have := h.refs jp
  omega

theorem Covered.held {s : Fs} {o : Own} {ip : InodePtr} (h : s.Covered o) (hip : 0 < o ip) : s.Held ip :=
  (Int.natCast_pos.mpr hip).trans_le (h ip)

end Fs

end Xv6
