-- SUMMARY: namei and nameiparent follow the components of a path and keep the reference counts.
import Xv6.Base.Tokens
import Xv6.FileSystem.DirectoryMap

/-! # Paths

A path is the list of its components. To resolve it is to look them up one after the other,
each in the directory that the ones before it lead to (`Fs.resolve`). `namex` does that with
a reference to one inode at a time, and to a second one while it goes from the first to the
next. `Fs.Walk` says what it has changed on the way: reference counts and cache entries that
were free before.
-/

namespace Xv6

open Prog Fs SlotTable

variable {s t u : Fs} {o : Own} {ip jp cwd : InodePtr} {i m : Nat} {key : List UInt8} {path : List UInt8}

/-! ## Components -/

/-- The components of a path, cut to what a directory entry holds. -/
def components (path : List UInt8) : List (List UInt8) := (tokens slash path).map (·.take DIRSIZ)

theorem components_of_skipelem_none (h : skipelem path = none) : components path = [] := by
  unfold skipelem at h
  have hnil : path.dropWhile (· = slash) = [] := by
    by_contra hne
    simp [hne] at h
  unfold components
  rw [← tokens_dropWhile, hnil, tokens_nil]
  rfl

theorem take_of_skipelem {name rest : List UInt8} (h : skipelem path = some (name, rest)) : name.take DIRSIZ = name := by
  unfold skipelem at h
  generalize path.dropWhile (· = slash) = p at h
  by_cases hp : p = []
  · simp [hp] at h
  · simp only [hp, if_false, Option.some.injEq, Prod.mk.injEq] at h
    rw [← h.1, List.take_take, min_self]

theorem components_of_skipelem {name rest : List UInt8} (h : skipelem path = some (name, rest)) :
    components path = name :: components rest ∧ (rest = [] ↔ components rest = []) := by
  have hhead := List.head?_dropWhile_not (fun c => decide (c = slash)) path
  unfold skipelem at h
  unfold components
  rw [← tokens_dropWhile path]
  generalize path.dropWhile (· = slash) = p at h hhead
  cases p with
  | nil => simp at h
  | cons c p =>
    have hc : c ≠ slash := by simpa using hhead
    simp only [reduceCtorEq, if_false, Option.some.injEq, Prod.mk.injEq] at h
    obtain ⟨rfl, rfl⟩ := h
    rw [tokens_cons hc, tokens_dropWhile]
    refine ⟨rfl, ?_⟩
    -- what is left does not start with a slash
    have hrest := List.head?_dropWhile_not (fun c => decide (c = slash)) ((c :: p).dropWhile (· ≠ slash))
    rw [← tokens_dropWhile ((c :: p).dropWhile (· ≠ slash))]
    generalize ((c :: p).dropWhile (· ≠ slash)).dropWhile (· = slash) = q at hrest
    cases q with
    | nil => simp
    | cons x q =>
      have hx : x ≠ slash := by simpa using hrest
      simp [tokens_cons hx]

/-! ## Resolving a path -/

namespace Fs

/-- What a lookup in inode `i` comes to: nothing if it is not a directory. -/
def child (s : Fs) (i : Nat) (key : List UInt8) : Option Nat :=
  if (s.view i).type = T_DIR then s.target i key else none

/-- Look up one component after the other. -/
def walk (s : Fs) (i : Nat) (cs : List (List UInt8)) : Option Nat := cs.foldlM s.child i

/-- Look up all components but the last, which comes along. -/
def walkParent (s : Fs) (i : Nat) (cs : List (List UInt8)) : Option (Nat × List UInt8) :=
  cs.getLast?.bind fun name => (s.walk i cs.dropLast).bind fun j =>
    if (s.view j).type = T_DIR then some (j, name) else none

/-- The inode number at which a path starts. -/
def start (s : Fs) (cwd : InodePtr) (path : List UInt8) : Nat :=
  if path.head? = some slash then ROOTINO else (s.icache cwd).inum

def resolve (s : Fs) (cwd : InodePtr) (path : List UInt8) : Option Nat := s.walk (s.start cwd path) (components path)

def resolveParent (s : Fs) (cwd : InodePtr) (path : List UInt8) : Option (Nat × List UInt8) :=
  s.walkParent (s.start cwd path) (components path)

theorem walk_cons (s : Fs) (i : Nat) (c : List UInt8) (cs : List (List UInt8)) :
    s.walk i (c :: cs) = (s.child i c).bind fun j => s.walk j cs := List.foldlM_cons

theorem walkParent_single (s : Fs) (i : Nat) (c : List UInt8) :
    s.walkParent i [c] = if (s.view i).type = T_DIR then some (i, c) else none := rfl

theorem walkParent_cons (s : Fs) (i : Nat) (c : List UInt8) {cs : List (List UInt8)} (hcs : cs ≠ []) :
    s.walkParent i (c :: cs) = (s.child i c).bind fun j => s.walkParent j cs := by
  obtain ⟨c', cs', rfl⟩ := List.exists_cons_of_ne_nil hcs
  unfold walkParent
  rw [List.getLast?_cons_cons, List.dropLast_cons_of_ne_nil hcs]
  simp only [walk_cons]
  cases s.child i c with
  | none => cases (c' :: cs').getLast? <;> rfl
  | some j => rfl

/-- The last component is looked up in the parent. -/
theorem walk_eq_parent (s : Fs) (i : Nat) {cs : List (List UInt8)} (hcs : cs ≠ []) :
    s.walk i cs = (s.walkParent i cs).bind fun p => s.child p.1 p.2 := by
  induction cs generalizing i with
  | nil => exact absurd rfl hcs
  | cons c cs ih =>
    by_cases hnil : cs = []
    · subst hnil
      rw [walkParent_single, walk_cons]
      unfold child walk
      split
      · next hdir =>
        simp only [Option.bind_some, if_pos hdir]
        cases s.target i c <;> rfl
      · rfl
    · rw [walk_cons, walkParent_cons s i c hnil]
      cases s.child i c with
      | none => rfl
      | some j => exact ih j hnil

end Fs

/-! ## States to walk in -/

namespace Fs

/-- Some directory entry, or the root, is inode `m`. -/
def Entered (s : Fs) (m : Nat) : Prop :=
  m = ROOTINO ∨ ∃ i k key, s.Allocated i ∧ (s.view i).type = T_DIR ∧ k < s.slots i ∧ s.slot i k = some (key, m)

/-- A file system without locks whose directory entries name allocated inodes. -/
structure Walkable (s : Fs) : Prop where
  tidy : s.Tidy
  refs : ∀ jp, 0 ≤ (s.icache jp).ref
  unlocked : ∀ jp, (s.icache jp).locked = false
  aligned : ∀ i, s.Allocated i → (s.view i).type = T_DIR → s.Aligned i
  entries : ∀ m, s.Entered m → s.Allocated m

/-- Inode `m` has a link or a reference. -/
def Anchored (s : Fs) (m : Nat) : Prop := (s.view m).nlink ≠ 0 ∨ ∃ jp, s.Held jp ∧ (s.icache jp).inum = m

/-- `t` is `s` on the way along a path that holds `o`. -/
structure Walk (s t : Fs) (o : Own) : Prop where
  step : Step True s t Own.none o []
  same : Same s t
  inums : ∀ jp, s.Held jp → (t.icache jp).inum = (s.icache jp).inum
  fresh : ∀ jp, ¬ s.Held jp → t.Loaded jp → t.dinode (t.icache jp).inum = (t.icache jp).toDinode

namespace Walk

theorem refl (h : s.Tidy) : Walk s s Own.none :=
  ⟨.refl h, .refl s, fun _ _ => rfl, fun _ hjp hloaded => absurd hloaded.1 hjp⟩

theorem ref (hw : Walk s t o) (jp : InodePtr) : (t.icache jp).ref = (s.icache jp).ref + o jp := by
  have := hw.step.refs jp
  unfold Own.none at this
  omega

theorem covered (hw : Walk s t o) (h : s.Walkable) : t.Covered o := by
  intro jp
  have := h.refs jp
  rw [hw.ref]
  omega

theorem held (hw : Walk s t o) (hjp : s.Held jp) : t.Held jp := by
  unfold Held at *
  rw [hw.ref]
  omega

end Walk

/-- No inode is locked. -/
def Unlocked (t : Fs) : Prop := ∀ jp, (t.icache jp).locked = false

/-- `ip` is the only inode that is locked. -/
def LockedOnly (t : Fs) (ip : InodePtr) : Prop := ∀ jp, (t.icache jp).locked = decide (jp = ip)

end Fs

/-! ## The calls on the way -/

namespace Fs.Walk

variable {E : Stop → Prop}

theorem wp_iget {Q : InodePtr → Fs → Prop} (hw : Walk s t o) (h : s.Walkable) (hm : m < s.sb.ninodes)
    (hfree : ∃ jp, (t.icache jp).ref = 0)
    (hQ : ∀ ip u, Walk s u (o.hold ip) → (u.icache ip).inum = m →
      (∀ jp, (u.icache jp).locked = (t.icache jp).locked) →
      (∀ jp, t.Held jp → (u.icache jp).inum = (t.icache jp).inum) → Q ip u) :
    wp (iget m) Q E t := by
  refine wp_iget_got True hw.step.tidy (hw.covered h) (by rw [hw.step.sb]; exact hm) (fun hfull _ => ?_) fun ip u hg => ?_
  · obtain ⟨jp, hjp⟩ := hfree
    exact absurd hjp (hfull jp)
  · have hkeeps : ∀ jp, t.Held jp → (u.icache jp).inum = (t.icache jp).inum := by
      intro jp hjp
      by_cases heq : jp = ip
      · rcases hg.old with ⟨-, hinum, -⟩ | ⟨h0, -⟩
        · rw [heq, hg.inum, hinum]
        · unfold Held at hjp
          rw [heq, h0] at hjp
          exact absurd hjp (lt_irrefl _)
      · rw [hg.icache jp heq]
    refine hQ ip u ⟨hw.step.trans hg.step, hw.same.trans hg.same, fun jp hjp => ?_, fun jp hjp hloaded => ?_⟩ hg.inum
      (fun jp => ?_) hkeeps
    · rw [hkeeps jp (hw.held hjp), hw.inums jp hjp]
    · have hdinode : ∀ j, u.dinode j = t.dinode j := by
        intro j
        unfold dinode
        rw [hg.same.disk, hg.same.sb]
      rw [hdinode]
      by_cases heq : jp = ip
      · subst heq
        rcases hg.old with ⟨hheld, hinum, hd, hvalid⟩ | ⟨-, hvalid⟩
        · rw [hg.inum, ← hinum, hd]
          exact hw.fresh jp hjp ⟨hheld, hvalid ▸ hloaded.2⟩
        · rw [hloaded.2] at hvalid
          cases hvalid
      · unfold Loaded Held at hloaded
        rw [hg.icache jp heq] at hloaded ⊢
        exact hw.fresh jp hjp hloaded
    · by_cases heq : jp = ip
      · rw [heq, hg.locked]
      · rw [hg.icache jp heq]

theorem idup (hw : Walk s t o) (hip : s.Held ip) : Walk s (t.addRef ip) (o.hold ip) := by
  have hheld := hw.held hip
  refine ⟨hw.step.trans (.addRef hw.step.tidy hheld),
    hw.same.trans ⟨rfl, rfl, hw.step.tidy.toInv.addRef_view hheld⟩, fun jp hjp => ?_, fun jp hjp hloaded => ?_⟩
  · rw [← hw.inums jp hjp]
    by_cases heq : jp = ip
    · rw [heq, addRef, setInode_icache_same]
    · rw [addRef, setInode_icache_ne t _ heq]
  · have hne : jp ≠ ip := fun heq => hjp (heq ▸ hip)
    have hentry : (t.addRef ip).icache jp = t.icache jp := setInode_icache_ne t _ hne
    unfold Loaded Held at hloaded
    rw [hentry] at hloaded ⊢
    exact hw.fresh jp hjp hloaded

/-- The inode at the end of the way so far is on the disk or in memory. -/
theorem typed (hw : Walk s t o) (hip : t.Held ip) (hal : s.Allocated (t.icache ip).inum) : t.Typed ip := by
  intro hvalid
  have hnot : ∀ jp, ¬ t.Caches jp (t.icache ip).inum := by
    intro jp hjp
    rw [hw.step.tidy.cacheInj jp ip hjp.1 hip hjp.2.2] at hjp
    rw [hjp.2.1] at hvalid
    cases hvalid
  rw [← view_of_not_cached hnot, hw.same.view]
  exact hal.2

theorem wp_ilock {Q : Unit → Fs → Prop} (hw : Walk s t o) (h : s.Walkable) (ho : 0 < o ip) (hlocks : t.Unlocked)
    (hal : s.Allocated (t.icache ip).inum)
    (hQ : ∀ u, Walk s u o → u.LockedOnly ip → u.Loaded ip → (u.icache ip).inum = (t.icache ip).inum → Q () u) :
    wp (ilock ip) Q E t := by
  have hheld := (hw.covered h).held ho
  have htyped := hw.typed hheld hal
  refine Xv6.wp_ilock hw.step.tidy.sbWf hheld (hw.step.tidy.cacheRange ip hheld) (fun hlocked => ?_)
    (fun hnot => absurd htyped hnot) fun _ => ?_
  · rw [hlocks ip] at hlocked
    cases hlocked
  · have hcaches := lockInode_caches hheld
    have hinum : ∀ jp, ((t.lockInode ip).icache jp).inum = (t.icache jp).inum := fun jp =>
      (entries_lockInode (fun _ => 1) t ip jp Nat.one_pos).1
    have hentry : (t.lockInode ip).icache ip = (t.icache ip).lock (t.dinode (t.icache ip).inum) :=
      setInode_icache_same _ _ _
    refine hQ (t.lockInode ip) ⟨hw.step.trans (.lockInode hw.step.tidy hheld htyped),
      hw.same.trans (.lockInode hw.step.tidy.toInv hheld), fun jp hjp => (hinum jp).trans (hw.inums jp hjp),
      fun jp hjp hloaded => ?_⟩ (fun jp => ?_) ⟨hcaches.1, hcaches.2.1⟩ (hinum ip)
    · by_cases heq : jp = ip
      · subst heq
        rw [hinum, hentry]
        change t.dinode (t.icache jp).inum = if (t.icache jp).valid then _ else _
        split
        · next hvalid => exact hw.fresh jp hjp ⟨hheld, hvalid⟩
        · rfl
      · unfold Loaded Held at hloaded
        rw [lockInode_icache_ne heq] at hloaded ⊢
        exact hw.fresh jp hjp hloaded
    · by_cases heq : jp = ip
      · rw [heq, hentry, decide_eq_true rfl]
        rfl
      · rw [lockInode_icache_ne heq, hlocks jp, decide_eq_false heq]

theorem wp_iunlock {Q : Unit → Fs → Prop} (hw : Walk s t o) (h : s.Walkable) (ho : 0 < o ip) (hlocks : t.LockedOnly ip)
    (hQ : ∀ u, Walk s u o → u.Unlocked → (∀ jp, (u.icache jp).inum = (t.icache jp).inum) → Q () u) :
    wp (iunlock ip) Q E t := by
  have hheld : 0 < (t.icache ip).ref := (hw.covered h).held ho
  have hentry : (t.unlockInode ip).icache ip = { t.icache ip with locked := false } := setInode_icache_same _ _ _
  have hother : ∀ jp, jp ≠ ip → (t.unlockInode ip).icache jp = t.icache jp := fun jp => setInode_icache_ne t _
  have hsame : ∀ jp, (t.unlockInode ip).icache jp = { t.icache jp with locked := false } := by
    intro jp
    by_cases heq : jp = ip
    · rw [heq, hentry]
    · have := hlocks jp
      rw [decide_eq_false heq] at this
      rw [hother jp heq, ← this]
  refine Xv6.wp_iunlock (fun hbad => ?_) (hQ _ ⟨hw.step.trans (.unlockInode hw.step.tidy ip),
    hw.same.trans (.unlockInode hw.step.tidy.toInv ip), fun jp hjp => ?_, fun jp hjp hloaded => ?_⟩ (fun jp => ?_) fun jp => ?_)
  · rw [hlocks ip, decide_eq_true rfl] at hbad
    rcases hbad with hbad | hbad
    · cases hbad
    · omega
  · rw [hsame]
    exact hw.inums jp hjp
  · unfold Loaded Held at hloaded
    rw [hsame] at hloaded ⊢
    exact hw.fresh jp hjp hloaded
  · rw [hsame]
  · rw [hsame]

/-- A reference that the walk took is never the last one to an inode without links. -/
theorem not_last (hw : Walk s t (o.hold ip)) (h : s.Walkable) (hanchored : s.Anchored (t.icache ip).inum) :
    ¬ ((t.icache ip).valid = true ∧ (t.icache ip).nlink = 0 ∧ (t.icache ip).ref = 1) := by
  rintro ⟨hvalid, hnlink, href⟩
  have hheld := (hw.covered h).held (o.hold_pos ip)
  rcases hanchored with hlink | ⟨jp, hjp, hinum⟩
  · rw [← hw.same.view, view_of_caches hw.step.tidy.cacheInj ⟨hheld, hvalid, rfl⟩] at hlink
    exact hlink hnlink
  · -- the walk shares the entry with a reference from before
    have heq := hw.step.tidy.cacheInj jp ip (hw.held hjp) hheld ((hw.inums jp hjp).trans hinum)
    unfold Held at hjp
    rw [hw.ref, o.hold_same] at href
    rw [heq] at hjp
    push_cast at href
    omega

theorem release_same (hw : Walk s t (o.hold ip)) : Same t (t.release ip) := by
  refine ⟨rfl, rfl, fun j => ?_⟩
  rw [hw.step.tidy.toInv.release_view]
  split
  · next hlast =>
    -- the entry was free before, so it was loaded on the way
    have hnew : ¬ s.Held ip := by
      intro hip
      have href := hlast.2
      unfold Held at hip
      rw [hw.ref, o.hold_same] at href
      push_cast at href
      omega
    have hfresh := hw.fresh ip hnew ⟨hlast.1.1, hlast.1.2.1⟩
    rw [view_of_caches hw.step.tidy.cacheInj hlast.1, ← hfresh, hlast.1.2.2]
  · rfl

theorem wp_iput {Q : Unit → Fs → Prop} (hw : Walk s t (o.hold ip)) (h : s.Walkable) (hlocks : t.Unlocked)
    (hanchored : s.Anchored (t.icache ip).inum)
    (hQ : ∀ u, Walk s u o → u.Unlocked → (∀ jp, (u.icache jp).inum = (t.icache jp).inum) → Q () u) :
    wp (iput ip) Q E t := by
  have hentry : ∀ jp, ∃ r, (t.release ip).icache jp = { t.icache jp with ref := r } ∧ r ≤ (t.icache jp).ref := by
    intro jp
    by_cases heq : jp = ip
    · rw [heq]
      exact ⟨_, setInode_icache_same _ _ _, by omega⟩
    · exact ⟨_, release_icache_ne heq, le_rfl⟩
  refine wp_iput_drop (hw.not_last h hanchored) (fun hlocked => ?_) fun _ => hQ _ ⟨hw.step.trans (.release hw.step.tidy),
    hw.same.trans hw.release_same, fun jp hjp => ?_, fun jp hjp hloaded => ?_⟩ (fun jp => ?_) fun jp => ?_
  · rw [hlocks ip] at hlocked
    cases hlocked
  all_goals obtain ⟨r, hr, hle⟩ := hentry jp
  · rw [hr]
    exact hw.inums jp hjp
  · unfold Loaded Held at hloaded
    rw [hr] at hloaded ⊢
    exact hw.fresh jp hjp ⟨hloaded.1.trans_le hle, hloaded.2⟩
  · rw [hr]
    exact hlocks jp
  · rw [hr]

theorem wp_iunlockput {Q : Unit → Fs → Prop} (hw : Walk s t (o.hold ip)) (h : s.Walkable) (hlocks : t.LockedOnly ip)
    (hanchored : s.Anchored (t.icache ip).inum)
    (hQ : ∀ u, Walk s u o → u.Unlocked → (∀ jp, (u.icache jp).inum = (t.icache jp).inum) → Q () u) :
    wp (iunlockput ip) Q E t := by
  simp only [iunlockput, wp_bind]
  refine hw.wp_iunlock h (o.hold_pos ip) hlocks fun u hu hunlocked hinum => ?_
  refine hu.wp_iput h hunlocked (by rw [hinum]; exact hanchored) fun v hv hunlocked' hinum' => ?_
  exact hQ v hv hunlocked' fun jp => (hinum' jp).trans (hinum jp)

end Fs.Walk

/-! ## The walk -/

/-- `t` is what a lookup for inode number `x` that gives `r` leaves of `s`: one more reference
    to the result, and nothing else. -/
structure Fs.Returned (s t : Fs) (x : Option Nat) (r : Option InodePtr) : Prop where
  inode : (r.map fun ip => (t.icache ip).inum) = x
  refs : ∀ jp, (t.icache jp).ref = (s.icache jp).ref + if r = some jp then 1 else 0
  inums : ∀ jp, s.Held jp → (t.icache jp).inum = (s.icache jp).inum
  unlocked : t.Unlocked
  same : Same s t

namespace Fs.Walk

theorem returned_none (hw : Walk s t Own.none) (hlocks : t.Unlocked) : Returned s t none none := by
  refine ⟨rfl, fun jp => ?_, hw.inums, hlocks, hw.same⟩
  rw [hw.ref]
  rfl

theorem returned (hw : Walk s t (Own.none.hold ip)) (hlocks : t.Unlocked) (hinum : (t.icache ip).inum = i) :
    Returned s t (some i) (some ip) := by
  refine ⟨by rw [← hinum]; rfl, fun jp => ?_, hw.inums, hlocks, hw.same⟩
  rw [hw.ref]
  unfold Own.hold Own.none
  by_cases heq : jp = ip
  · simp [heq]
  · simp [heq, Ne.symm heq]

/-- The directory that is locked is read entry by entry. -/
theorem listed (hw : Walk s t o) (h : s.Walkable) (hloaded : t.Loaded ip) (hinum : (t.icache ip).inum = i)
    (hal : s.Allocated i) (htype : (t.icache ip).type = T_DIR) : t.Listed ip i := by
  have hview : s.view i = (t.icache ip).toDinode := by
    rw [← hw.same.view]
    exact view_of_caches hw.step.tidy.cacheInj ⟨hloaded.1, hloaded.2, hinum⟩
  refine ⟨hw.step.tidy, ⟨hloaded, htype⟩, hinum, (hw.same.sameFile i).aligned (h.aligned i hal ?_)⟩
  rw [hview]
  exact htype

end Fs.Walk

/-- What `namex` looks for: the inode that the components lead to, or its parent. -/
def Fs.goal (s : Fs) (parent : Bool) (i : Nat) (cs : List (List UInt8)) : Option (Nat × List UInt8) :=
  if parent then s.walkParent i cs else (s.walk i cs).map fun j => (j, [])

theorem Fs.goal_cons (s : Fs) {parent : Bool} (i : Nat) (c : List UInt8) {cs : List (List UInt8)}
    (h : ¬ (parent = true ∧ cs = [])) :
    s.goal parent i (c :: cs) = (s.child i c).bind fun j => s.goal parent j cs := by
  unfold goal
  cases parent with
  | false =>
    simp only [Bool.false_eq_true, if_false, walk_cons]
    cases s.child i c <;> rfl
  | true =>
    simp only [if_true]
    exact s.walkParent_cons i c fun hnil => h ⟨rfl, hnil⟩

theorem Fs.goal_of_not_dir (s : Fs) (parent : Bool) {i : Nat} (c : List UInt8) (cs : List (List UInt8))
    (h : (s.view i).type ≠ T_DIR) : s.goal parent i (c :: cs) = none := by
  by_cases hlast : parent = true ∧ cs = []
  · rw [hlast.1, hlast.2]
    unfold goal
    rw [if_pos rfl, walkParent_single, if_neg h]
  · rw [s.goal_cons i c hlast]
    unfold child
    rw [if_neg h]
    rfl

section Namex

variable (h : s.Walkable) (hanchored : ∀ m, s.Entered m → s.Anchored m)
  (hfree : ∃ a b, a ≠ b ∧ (s.icache a).ref = 0 ∧ (s.icache b).ref = 0)

include hfree in
theorem Fs.Walk.exists_free (hw : Walk s t (Own.none.hold ip)) : ∃ jp, (t.icache jp).ref = 0 := by
  obtain ⟨a, b, hab, ha, hb⟩ := hfree
  have hother : ∀ jp, jp ≠ ip → (t.icache jp).ref = (s.icache jp).ref := by
    intro jp hjp
    rw [hw.ref, Own.hold_ne _ _ hjp]
    simp [Own.none]
  by_cases heq : a = ip
  · exact ⟨b, by rw [hother b fun h => hab (heq.trans h.symm), hb]⟩
  · exact ⟨a, by rw [hother a heq, ha]⟩

include h hanchored hfree in
theorem wp_namexLoop (parent : Bool) :
    ∀ (fuel : Nat) (path : List UInt8) (ip : InodePtr) (i : Nat) (t : Fs), path.length < fuel →
      Walk s t (Own.none.hold ip) → t.Unlocked → (t.icache ip).inum = i → s.Allocated i → s.Anchored i →
      wp (namexLoop parent fuel ip path) (fun r u =>
        Returned s u ((s.goal parent i (components path)).map (·.1)) (r.map (·.1)) ∧
          r.map (·.2) = (s.goal parent i (components path)).map (·.2)) (fun _ => False) t := by
  intro fuel
  induction fuel with
  | zero =>
    intro path ip i t hlen
    omega
  | succ fuel ih =>
    intro path ip i t hlen hw hlocks hinum hal hanch
    simp only [namexLoop]
    split
    · next hskip =>
      rw [components_of_skipelem_none hskip]
      cases parent with
      | true =>
        simp only [if_true, wp_bind]
        refine hw.wp_iput h hlocks (by rw [hinum]; exact hanch) fun u hu hunlocked _ => ?_
        exact ⟨hu.returned_none hunlocked, rfl⟩
      | false => exact ⟨hw.returned hlocks hinum, rfl⟩
    · next name rest hskip =>
      obtain ⟨hcomp, hrest⟩ := components_of_skipelem hskip
      rw [hcomp]
      simp only [wp_bind]
      refine hw.wp_ilock h (Own.hold_pos _ ip) hlocks (by rw [hinum]; exact hal) fun u hu hlocked hloaded hinum' => ?_
      rw [hinum] at hinum'
      have htype : (s.view i).type = (u.icache ip).type := by
        rw [← hu.same.view, view_of_caches hu.step.tidy.cacheInj ⟨hloaded.1, hloaded.2, hinum'⟩]
      -- the exits that find nothing
      have hput : s.goal parent i (name :: components rest) = none →
          wp (iunlockput ip) (fun _ v =>
            Returned s v ((s.goal parent i (name :: components rest)).map (·.1)) none ∧
              none = (s.goal parent i (name :: components rest)).map (·.2)) (fun _ => False) u := by
        intro hnone
        rw [hnone]
        refine hu.wp_iunlockput h hlocked (by rw [hinum']; exact hanch) fun v hv hunlocked _ => ?_
        exact ⟨hv.returned_none hunlocked, rfl⟩
      simp only [wp_deref]
      split
      · next hnot =>
        rw [← htype] at hnot
        simp only [wp_bind, wp_pure]
        exact hput (s.goal_of_not_dir parent name _ hnot)
      · next hdir =>
        rw [not_not] at hdir
        split
        · next hlast =>
          rw [hrest.mp hlast.2, hlast.1]
          have hgoal : s.goal true i [name] = some (i, name) := by
            unfold goal
            rw [if_pos rfl, walkParent_single, htype, if_pos hdir]
          rw [hgoal]
          simp only [wp_bind, wp_pure]
          refine hu.wp_iunlock h (Own.hold_pos _ ip) hlocked fun v hv hunlocked hsame => ?_
          exact ⟨hv.returned hunlocked ((hsame ip).trans hinum'), rfl⟩
        · next hmore =>
          have hgoal := s.goal_cons i name fun hlast => hmore ⟨hlast.1, hrest.mpr hlast.2⟩
          have hl := hu.listed h hloaded hinum' hal hdir
          have hfile := hu.same.sameFile i
          have hchild : s.child i name = u.target i (name.take DIRSIZ) := by
            unfold child
            rw [htype, if_pos hdir, hfile.target, take_of_skipelem hskip]
          simp only [wp_bind]
          refine wp_dirlookup hl (fun hnone => ?_) fun k m hk hslot => ?_
          · rw [show u.target i (name.take DIRSIZ) = none from value_of_find_none hnone] at hchild
            simp only [wp_bind, wp_pure]
            refine hput ?_
            rw [hgoal, hchild]
            rfl
          · have hlt := (find_eq_some_iff.mp hk).1
            rw [show u.target i (name.take DIRSIZ) = some m from value_of_find hk hslot] at hchild
            have hentered : s.Entered m := by
              rw [hfile.slot] at hslot
              rw [hfile.slots] at hlt
              exact .inr ⟨i, k, _, hal, htype.trans hdir, hlt, hslot⟩
            have halm := h.entries m hentered
            refine hu.wp_iget h halm.1 (hu.exists_free hfree) fun nx v hv hinumv hlocksv hkeeps => ?_
            rw [Own.none.hold_comm ip nx] at hv
            simp only [wp_bind]
            refine hv.wp_iunlockput h (fun jp => (hlocksv jp).trans (hlocked jp)) ?_ fun w hx hunlocked hsame => ?_
            · rw [hkeeps ip hloaded.1, hinum']
              exact hanch
            · rw [hgoal, hchild]
              refine ih rest nx m w ?_ hx hunlocked ((hsame nx).trans hinumv) halm (hanchored m hentered)
              have := skipelem_length hskip
              omega

include h hanchored hfree in
theorem wp_namex (parent : Bool)
    (hcwd : path.head? ≠ some slash → s.Held cwd ∧ s.Allocated (s.icache cwd).inum) :
    wp (namex cwd path parent) (fun r u =>
      Returned s u ((s.goal parent (s.start cwd path) (components path)).map (·.1)) (r.map (·.1)) ∧
        r.map (·.2) = (s.goal parent (s.start cwd path) (components path)).map (·.2)) (fun _ => False) s := by
  have hloop := wp_namexLoop h hanchored hfree parent (path.length + 1) path
  have hw := Walk.refl h.tidy
  unfold start
  simp only [namex]
  split
  · have hroot : s.Entered ROOTINO := .inl rfl
    obtain ⟨a, -, -, ha, -⟩ := hfree
    rw [wp_bind]
    refine hw.wp_iget h (h.entries _ hroot).1 ⟨a, ha⟩ fun ip u hu hinum hlocks _ => ?_
    exact hloop ip ROOTINO u (Nat.lt_succ_self _) hu (fun jp => (hlocks jp).trans (h.unlocked jp)) hinum
      (h.entries _ hroot) (hanchored _ hroot)
  · next hrel =>
    obtain ⟨hheld, hal⟩ := hcwd hrel
    simp only [idup, wp_bind, wp_imodify, wp_pure]
    have hentry : (s.addRef cwd).icache cwd = { s.icache cwd with ref := (s.icache cwd).ref + 1 } :=
      setInode_icache_same _ _ _
    refine hloop cwd _ (s.addRef cwd) (Nat.lt_succ_self _) (hw.idup hheld) (fun jp => ?_) (by rw [hentry]) hal
      (.inr ⟨cwd, hheld, rfl⟩)
    by_cases heq : jp = cwd
    · rw [heq, hentry]
      exact h.unlocked cwd
    · rw [addRef, setInode_icache_ne s _ heq]
      exact h.unlocked jp

end Namex

/-! ## A disk with two directories -/

/-- The same disk with another inode cache. -/
def Fs.recache (s : Fs) (c : InodePtr → Inode) : Fs := { s with icache := c }

section Recache

variable {c : InodePtr → Inode} (hvalid : ∀ jp, (c jp).valid = false) (hagree : s.Agree fun _ => True)

include hvalid in
theorem Fs.not_caches_recache (jp : InodePtr) (j : Nat) : ¬ (s.recache c).Caches jp j := by
  rintro ⟨-, hv, -⟩
  have := hvalid jp
  rw [show (c jp).valid = true from hv] at this
  cases this

include hvalid hagree in
/-- Where memory and disk agree, an inode looks the same without its cache entry. -/
theorem Fs.Tidy.same_recache (h : s.Tidy) : Same s (s.recache c) := by
  refine ⟨rfl, rfl, fun j => ?_⟩
  rw [view_of_not_cached fun jp => not_caches_recache hvalid jp j]
  change s.dinode j = s.view j
  rcases view_cases h.cacheInj j with ⟨ip, hip, hview⟩ | ⟨-, hview⟩
  · rw [hview, ← hagree ip ⟨hip.1, hip.2.1⟩ trivial, hip.2.2]
  · rw [hview]

include hvalid hagree in
theorem Fs.Tidy.recache (h : s.Tidy) (hinj : ∀ ip jp, 0 < (c ip).ref → 0 < (c jp).ref → (c ip).inum = (c jp).inum → ip = jp)
    (hrange : ∀ jp, 0 < (c jp).ref → (c jp).inum < s.sb.ninodes) : (s.recache c).Tidy := by
  have hsame := h.same_recache hvalid hagree
  have hnot := fun jp j => not_caches_recache (s := s) hvalid jp j
  have hwf : (s.recache c).Wf := by
    refine h.toWf.of_roots rfl rfl (fun _ _ hb => hb) (fun _ _ => rfl) (fun k => .inr ?_) hinj hrange fun i hi => ?_
    · rw [hsame.forest]
    · unfold Allocated at hi
      rw [hsame.view] at hi ⊢
      exact h.sizeLe i hi
  refine h.of ⟨hwf, fun ip i hip => absurd hip (hnot ip i)⟩ rfl (fun i _ _ => .inl (hsame.sameFile i)) (fun ip hip => ?_)
    fun ip hip => ?_
  · exact absurd hip.caches (hnot ip _)
  · exact absurd hip.caches (hnot ip _)

end Recache

/-- Make a directory `"a"` in the root, with a way back. -/
def plant (nlink : Int16) : FS Unit := do
  let ip ← ialloc T_DIR
  ilock ip
  imodify ip fun x => { x with nlink := nlink }
  iupdate ip
  let _ ← dirlink ip [46, 46] 1
  let _ ← dirlink 0 [97] 2
  pure ()

theorem runs_plant (nlink : Int16) (h : s.Tidy) (hc : s.Covered (Own.none.hold 0)) (hroot : s.Loaded 0)
    (hn : 2 < s.sb.ninodes) (hagree : s.Agree fun _ => True) :
    Runs (plant nlink) s fun _ t => t.Tidy ∧ t.Agree fun _ => True := by
  simp only [plant, wp_bind]
  refine (runs_ialloc h hc).post fun ip t hlock => hlock.post ?_
  rintro - u ⟨i, hcl⟩
  have hne : ip ≠ 0 := fun heq => hcl.fresh (heq ▸ hroot)
  simp only [wp_imodify]
  refine runs_assign hcl.tidy hcl.loaded ?_
  generalize hv : u.assign ip (u.icache ip).major (u.icache ip).minor nlink = v
  have htidy : v.Tidy := hv ▸ hcl.tidy.assign hcl.loaded.caches
  have hagree' : v.Agree fun _ => True := hv ▸ (hcl.agree _ hagree).assign hcl.tidy.toInv hcl.loaded.caches
  have hsb : v.sb = s.sb := hv ▸ hcl.sb
  have hcov : v.Covered ((Own.none.hold 0).hold ip) := by
    intro jp
    have h1 := hcl.refs jp
    have h2 := hc jp
    rw [← hv, assign_ref]
    omega
  have hip : v.Loaded ip := hv ▸ assign_loaded.mpr hcl.loaded
  refine (runs_dirlink True htidy hcov hip (Own.hold_pos _ ip) (by rw [hsb]; omega)).post ?_
  rintro - w ⟨bn, hw⟩
  have hroot' : w.Loaded 0 := by
    have hpos : 0 < (Own.none.hold 0).hold ip 0 := by
      rw [Own.hold_ne _ _ hne.symm]
      exact Own.hold_pos _ 0
    refine ⟨(hw.step.covered hcov).held hpos, ((hw.steady 0 hpos).2 ?_).1⟩
    rw [← hv, assign_icache_ne hne.symm, hcl.icache 0 hne.symm]
    exact hroot.2
  have hpos : 0 < (Own.none.hold 0).hold ip 0 := by
    rw [Own.hold_ne _ _ hne.symm]
    exact Own.hold_pos _ 0
  refine (runs_dirlink True hw.step.tidy (hw.step.covered hcov) hroot' hpos (by rw [hw.step.sb, hsb]; exact hn)).post ?_
  rintro - x ⟨bm, hx⟩
  exact ⟨hx.step.tidy, hx.step.agree _ (hw.step.agree _ hagree')⟩

/-- A disk with two directories: the root with the entry `"a"`, and that one with the entry `".."`. -/
structure Fs.TwoDirs (t : Fs) (nlink : Int16) : Prop where
  ninodes : t.sb.ninodes = 200
  only : ∀ i < 200, (t.view i).type ≠ 0 → i = 1 ∨ i = 2
  types : (t.view 1).type = T_DIR ∧ (t.view 2).type = T_DIR
  nlinks : (t.view 1).nlink = 1 ∧ (t.view 2).nlink = nlink
  sizes : (t.view 1).size = 16 ∧ (t.view 2).size = 16
  entries : t.slot 1 0 = some ([97], 2) ∧ t.slot 2 0 = some ([46, 46], 1)

instance (t : Fs) (nlink : Int16) : Decidable (t.TwoDirs nlink) :=
  decidable_of_iff (t.sb.ninodes = 200 ∧ (∀ i < 200, (t.view i).type ≠ 0 → i = 1 ∨ i = 2) ∧
    ((t.view 1).type = T_DIR ∧ (t.view 2).type = T_DIR) ∧
    ((t.view 1).nlink = 1 ∧ (t.view 2).nlink = nlink) ∧ ((t.view 1).size = 16 ∧ (t.view 2).size = 16) ∧
    (t.slot 1 0 = some ([97], 2) ∧ t.slot 2 0 = some ([46, 46], 1)))
    ⟨fun ⟨h1, h2, h3, h4, h5, h6⟩ => ⟨h1, h2, h3, h4, h5, h6⟩, fun h => ⟨h.1, h.2, h.3, h.4, h.5, h.6⟩⟩

namespace Fs.TwoDirs

variable {nlink : Int16}

theorem of_same (h : s.TwoDirs nlink) (hsame : Same s t) : t.TwoDirs nlink := by
  have hslot := fun i => (hsame.sameFile i).slot
  refine ⟨hsame.sb ▸ h.ninodes, ?_, ?_, ?_, ?_, ?_⟩
  · simp only [hsame.view]
    exact h.only
  · simp only [hsame.view]
    exact h.types
  · simp only [hsame.view]
    exact h.nlinks
  · simp only [hsame.view]
    exact h.sizes
  · rw [hslot, hslot]
    exact h.entries

theorem allocated_iff (h : s.TwoDirs nlink) : s.Allocated i ↔ i = 1 ∨ i = 2 := by
  constructor
  · rintro ⟨hlt, htype⟩
    rw [h.ninodes] at hlt
    exact h.only i hlt htype
  · have hne : T_DIR ≠ 0 := by decide
    rintro (rfl | rfl)
    · exact ⟨by rw [h.ninodes]; decide, by rw [h.types.1]; exact hne⟩
    · exact ⟨by rw [h.ninodes]; decide, by rw [h.types.2]; exact hne⟩

theorem entered (h : s.TwoDirs nlink) (hm : s.Entered m) : m = 1 ∨ m = 2 := by
  rcases hm with rfl | ⟨i, k, key, hal, -, hk, hslot⟩
  · exact .inl rfl
  · have hone : ∀ i, (s.view i).size = 16 → k < s.slots i → k = 0 := by
      intro i hsize hk
      unfold slots at hk
      rw [hsize] at hk
      exact Nat.lt_one_iff.mp hk
    rcases h.allocated_iff.mp hal with rfl | rfl
    · rw [hone 1 h.sizes.1 hk, h.entries.1] at hslot
      cases hslot
      exact .inr rfl
    · rw [hone 2 h.sizes.2 hk, h.entries.2] at hslot
      cases hslot
      exact .inl rfl

theorem walkable (h : s.TwoDirs nlink) (htidy : s.Tidy) (hrefs : ∀ jp, 0 ≤ (s.icache jp).ref) (hlocks : s.Unlocked) :
    s.Walkable := by
  refine ⟨htidy, hrefs, hlocks, fun i hi _ => ?_, fun m hm => h.allocated_iff.mpr (h.entered hm)⟩
  unfold Aligned
  rcases h.allocated_iff.mp hi with rfl | rfl
  · rw [h.sizes.1]
    decide
  · rw [h.sizes.2]
    decide

theorem anchored (h : s.TwoDirs nlink) (hnlink : nlink ≠ 0) (hm : s.Entered m) : s.Anchored m := by
  rcases h.entered hm with rfl | rfl
  · exact .inl (by rw [h.nlinks.1]; decide)
  · exact .inl (by rw [h.nlinks.2]; exact hnlink)

theorem child_eq (h : s.TwoDirs nlink) : s.child 1 [97] = some 2 ∧ s.child 2 [46, 46] = some 1 := by
  have hfirst : ∀ i key m, (s.view i).type = T_DIR → (s.view i).size = 16 → s.slot i 0 = some (key, m) →
      s.child i key = some m := by
    intro i key m htype hsize hslot
    have hlt : 0 < s.slots i := by
      unfold slots
      rw [hsize]
      decide
    unfold child target
    rw [if_pos htype]
    exact value_of_find (find_eq_some_iff.mpr ⟨hlt, ⟨m, hslot⟩, fun j hj => absurd hj (Nat.not_lt_zero j)⟩) hslot
  exact ⟨hfirst 1 _ _ h.types.1 h.sizes.1 h.entries.1, hfirst 2 _ _ h.types.2 h.sizes.2 h.entries.2⟩

theorem walk_a (h : s.TwoDirs nlink) : s.walk ROOTINO [[97]] = some 2 := by
  rw [walk_cons, show s.child ROOTINO [97] = some 2 from h.child_eq.1]
  rfl

theorem walk_back (h : s.TwoDirs nlink) (cs : List (List UInt8)) :
    s.walk ROOTINO ([97] :: [46, 46] :: cs) = s.walk ROOTINO cs := by
  have h1 : s.child ROOTINO [97] = some 2 := h.child_eq.1
  have h2 : s.child 2 [46, 46] = some ROOTINO := h.child_eq.2
  simp only [walk_cons, h1, h2, Option.bind_some]

end Fs.TwoDirs

/-- The inode cache with one free entry, and other inodes in the rest. -/
def crowd : InodePtr → Inode := fun jp =>
  { Dinode.blank with inum := jp.val + 2, ref := if jp = 0 then 0 else 1, locked := false, valid := false }

/-- The empty inode cache. -/
def noInodes : InodePtr → Inode := fun _ =>
  { Dinode.blank with inum := 0, ref := 0, locked := false, valid := false }

theorem exists_planted (nlink : Int16) (c : InodePtr → Inode) (test : Fs → Bool)
    (hrun : (plant nlink).returns emptyRoot (fun _ t => decide (t.TwoDirs nlink) && test (t.recache c)) = true)
    (hcold : ∀ jp, (c jp).valid = false ∧ (c jp).locked = false ∧ 0 ≤ (c jp).ref ∧ (c jp).inum < 200)
    (hinj : ∀ ip jp, 0 < (c ip).ref → 0 < (c jp).ref → (c ip).inum = (c jp).inum → ip = jp) :
    ∃ s : Fs, s.icache = c ∧ s.Walkable ∧ s.TwoDirs nlink ∧ test s = true := by
  have hw := emptyRoot_working
  have hagree := emptyRoot_step.agree _ (image_emptyDirectory_agree fun _ => True)
  obtain ⟨_, t, hplant, htest⟩ := exists_of_returns hrun
  rw [Bool.and_eq_true, decide_eq_true_eq] at htest
  obtain ⟨htidy, hagree'⟩ := (runs_plant nlink hw.tidy hw.covered hw.dir.loaded (by decide) hagree).of_run hplant
  have hvalid := fun jp => (hcold jp).1
  have htwo := htest.1.of_same (htidy.same_recache hvalid hagree')
  refine ⟨t.recache c, rfl, htwo.walkable (htidy.recache hvalid hagree' hinj fun jp _ => ?_) (fun jp => (hcold jp).2.2.1)
    fun jp => (hcold jp).2.1, htwo, htest.2⟩
  rw [htest.1.ninodes]
  exact (hcold jp).2.2.2

/-! ## Paths -/

/-- Path lookup is the fold of `dirlookup` over the components of the path. It gives one
    reference to its result, and leaves no other trace in the inode cache, if two entries of
    the cache are free and every inode with an entry has a link or a reference. -/
theorem namei_follows_components (s : Fs) (cwd : InodePtr) (path : List UInt8) (h : s.Walkable)
    (hanchored : ∀ m, s.Entered m → s.Anchored m)
    (hfree : ∃ a b, a ≠ b ∧ (s.icache a).ref = 0 ∧ (s.icache b).ref = 0)
    (hcwd : path.head? ≠ some slash → s.Held cwd ∧ s.Allocated (s.icache cwd).inum) :
    wp (namei cwd path) (fun r t => Returned s t (s.resolve cwd path) r) (fun _ => False) s ∧
    wp (nameiparent cwd path) (fun r t => Returned s t ((s.resolveParent cwd path).map (·.1)) (r.map (·.1)) ∧
      r.map (·.2) = (s.resolveParent cwd path).map (·.2)) (fun _ => False) s ∧
    (components path = [] → s.resolveParent cwd path = none) ∧
    (components path ≠ [] → s.resolve cwd path = (s.resolveParent cwd path).bind fun p => s.child p.1 p.2) ∧
    ∀ t dp i name, Same s t → t.Listed dp i → t.Covered Own.none → (∃ jp, (t.icache jp).ref = 0) →
      wp (dirlookup dp name) (fun r u => (r.map fun x => (u.icache x.1).inum) = s.child i (name.take DIRSIZ))
        (fun _ => False) t := by
  refine ⟨?_, wp_namex h hanchored hfree true hcwd, fun hnil => ?_, fun hne => s.walk_eq_parent _ hne,
    fun t dp i name hsame hl hc hfree => ?_⟩
  · simp only [namei, wp_bind, wp_pure]
    refine (wp_namex h hanchored hfree false hcwd).post ?_
    rintro r t ⟨hr, -⟩
    unfold goal at hr
    rw [if_neg (by decide), Option.map_map] at hr
    rw [show s.resolve cwd path = (s.walk (s.start cwd path) (components path)).map id by rw [Option.map_id]; rfl]
    exact hr
  · unfold resolveParent
    rw [hnil]
    rfl
  · have htype : (s.view i).type = T_DIR := by
      rw [← hsame.view, ← hl.inum, hl.dir.view hl.tidy]
      exact hl.dir.type
    have hchild : s.child i (name.take DIRSIZ) = t.target i (name.take DIRSIZ) := by
      unfold child
      rw [if_pos htype, (hsame.sameFile i).target]
    refine wp_dirlookup hl (fun hnone => ?_) fun k m hk hslot => ?_
    · rw [hchild, show t.target i (name.take DIRSIZ) = none from value_of_find_none hnone]
      rfl
    · have hlt := (find_eq_some_iff.mp hk).1
      rw [hchild, show t.target i (name.take DIRSIZ) = some m from value_of_find hk hslot]
      refine wp_iget_got True hl.tidy hc (hl.slot_lt hlt hslot) (fun hfull _ => ?_) fun ip u hg => ?_
      · obtain ⟨jp, hjp⟩ := hfree
        exact absurd hjp (hfull jp)
      · rw [← hg.inum]
        rfl

/-- `"/a//../a"` is the directory `a`, and it gets a reference. -/
theorem namei_follows_around : ∃ s : Fs, s.Walkable ∧ s.TwoDirs 1 ∧
    ∃ ip t, namei 0 [47, 97, 47, 47, 46, 46, 47, 97] s = .ok (some ip, t) ∧ (t.icache ip).inum = 2 ∧
      ∀ jp, (t.icache jp).ref = if jp = ip then 1 else 0 := by
  obtain ⟨s, hc, hw, htwo, -⟩ := exists_planted 1 noInodes (fun _ => true) (by decide +kernel) (by decide) (by decide +kernel)
  have hfree : ∀ jp, (s.icache jp).ref = 0 := fun jp => by rw [hc]; rfl
  have hpath : s.resolve 0 [47, 97, 47, 47, 46, 46, 47, 97] = some 2 := by
    have hcs : components [47, 97, 47, 47, 46, 46, 47, 97] = [[97], [46, 46], [97]] := by decide
    unfold resolve
    rw [hcs]
    exact (htwo.walk_back _).trans htwo.walk_a
  obtain ⟨r, t, hrun, hr⟩ := (namei_follows_components s 0 [47, 97, 47, 47, 46, 46, 47, 97] hw
    (fun m => htwo.anchored (by decide)) ⟨0, 1, by decide, hfree 0, hfree 1⟩ fun hrel => absurd rfl hrel).1.run_ok
  rw [hpath] at hr
  obtain ⟨ip, rfl, hinum⟩ := Option.map_eq_some_iff.mp hr.inode
  refine ⟨s, hw, htwo, ip, t, hrun, hinum, fun jp => ?_⟩
  rw [hr.refs jp, hfree jp, zero_add]
  simp only [Option.some.injEq, eq_comm]

/-- One free entry of the inode cache is not enough: `"/a"` needs the root and `a` at a time.
    And a directory entry for an inode without links does not keep it: `"/a/../a/.."` frees
    `a` on the way and finds it again. -/
theorem walk_fails :
    (∃ s : Fs, s.Walkable ∧ (∀ m, s.Entered m → s.Anchored m) ∧ (∃ jp, (s.icache jp).ref = 0) ∧
      s.resolve 0 [47, 97] = some 2 ∧ namei 0 [47, 97] s = .error .igetNoInodes) ∧
    ∃ s : Fs, s.Walkable ∧ (∀ jp, (s.icache jp).ref = 0) ∧
      s.resolve 0 [47, 97, 47, 46, 46, 47, 97, 47, 46, 46] = some 1 ∧
      namei 0 [47, 97, 47, 46, 46, 47, 97, 47, 46, 46] s = .error .ilockNoType := by
  constructor
  · obtain ⟨s, hc, hw, htwo, hstop⟩ := exists_planted 1 crowd
      (fun s => (namei 0 [47, 97]).stopsWith s .igetNoInodes) (by decide +kernel) (by decide) (by decide +kernel)
    refine ⟨s, hw, fun m => htwo.anchored (by decide), ⟨0, by rw [hc]; rfl⟩, ?_, eq_error_of_stopsWith hstop⟩
    have hcs : components [47, 97] = [[97]] := by decide
    unfold resolve
    rw [hcs]
    exact htwo.walk_a
  · obtain ⟨s, hc, hw, htwo, hstop⟩ := exists_planted 0 noInodes
      (fun s => (namei 0 [47, 97, 47, 46, 46, 47, 97, 47, 46, 46]).stopsWith s .ilockNoType)
      (by decide +kernel) (by decide) (by decide +kernel)
    refine ⟨s, hw, fun jp => by rw [hc]; rfl, ?_, eq_error_of_stopsWith hstop⟩
    have hcs : components [47, 97, 47, 46, 46, 47, 97, 47, 46, 46] = [[97], [46, 46], [97], [46, 46]] := by decide
    unfold resolve
    rw [hcs]
    exact (htwo.walk_back _).trans (htwo.walk_back _)

end Xv6
