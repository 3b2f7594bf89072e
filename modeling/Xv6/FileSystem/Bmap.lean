-- SUMMARY: What bmap does: it finds the block of a file, growing the block tree where it is missing.
import Xv6.FileSystem.Ownership

/-! # The block map

`bmap` only changes the state by grafts. `wp_bmap` hands every graft on to the
caller as a step of an invariant of its choice, and reports that the trees only
grew and that the address is the one the tree now has. On a block that is there
`bmap` is a lookup (`wp_bmap_of_mapped`).
-/

namespace Xv6

open Prog

namespace Fs

/-- The block `balloc` is going to take. -/
structure FirstFree (s : Fs) (a : Nat) : Prop where
  lt : a < s.sb.size
  free : s.used a = false
  first : ∀ b < a, s.used b = true

namespace Extend

variable {s s' : Fs}

theorem caches (g : Extend s s') {ip : InodePtr} {i : Nat} (h : s.Caches ip i) : s'.Caches ip i := by
  have hx := g.inode ip
  unfold Caches at *
  rw [← hx] at h
  exact h

theorem view (g : Extend s s') (hinj : s.CacheInj) {i : Nat} (hi : i < s.sb.ninodes) :
    { s'.view i with addrs := (s.view i).addrs } = s.view i :=
  (view_of_inode hinj g.inode g.dinode).2.2 i hi

theorem view_type (g : Extend s s') (hinj : s.CacheInj) {i : Nat} (hi : i < s.sb.ninodes) :
    (s'.view i).type = (s.view i).type := by
  rw [← g.view hinj hi]

theorem view_size (g : Extend s s') (hinj : s.CacheInj) {i : Nat} (hi : i < s.sb.ninodes) :
    (s'.view i).size = (s.view i).size := by
  rw [← g.view hinj hi]

theorem allocated (g : Extend s s') (hinj : s.CacheInj) {i : Nat} (h : s.Allocated i) :
    s'.Allocated i :=
  ⟨g.sb ▸ h.1, by rw [g.view_type hinj h.1]; exact h.2⟩

theorem blockAddr (g : Extend s s') {i bn : Nat} (h : s.blockAddr i bn ≠ 0) :
    s'.blockAddr i bn = s.blockAddr i bn := by
  by_cases hbn : bn < MAXFILE
  · rw [blockAddr_of_lt hbn] at h
    rw [blockAddr_of_lt hbn, blockAddr_of_lt hbn]
    exact g.node _ _ (blockPath_path hbn i) h
  · simp [Fs.blockAddr, hbn] at h

end Extend

end Fs

/-! ## One level -/

section Levels

variable {s : Fs} {E : Stop → Prop} {Q : UInt32 → Fs → Prop}

theorem wp_loadAddr {ip : InodePtr} {k : Fin NADDRS} (hwf : s.sb.Wf) (hlog : MayLog E s)
    (hout : E .ballocOutOfBlocks)
    (hsome : (s.icache ip).addrs k ≠ 0 → Q ((s.icache ip).addrs k) s)
    (hnone : (s.icache ip).addrs k = 0 → 1 ≤ s.log.outstanding → ∀ a, s.FirstFree a →
      Q (UInt32.ofNat a) (s.graftRoot ip k a)) :
    wp (loadAddr ip k) Q E s := by
  simp only [loadAddr, wp_bind, wp_deref]
  split
  · next h0 =>
    simp only [wp_bind, wp_imodify, wp_pure]
    exact wp_balloc hwf hlog hout fun a ha hfree hfirst hin => hnone h0 hin a ⟨ha, hfree, hfirst⟩
  · next h0 => exact hsome h0

theorem wp_loadEntry {b : UInt32} {j : Nat} (hwf : s.sb.Wf) (hlog : MayLog E s)
    (hout : E .ballocOutOfBlocks) (hb : b.toNat < FSSIZE)
    (hkeep : ∀ a, s.FirstFree a → (s.alloc a).disk b.toNat = s.disk b.toNat)
    (hsome : (s.disk b.toNat).word j ≠ 0 → Q ((s.disk b.toNat).word j) s)
    (hnone : (s.disk b.toNat).word j = 0 → 1 ≤ s.log.outstanding → ∀ a, s.FirstFree a →
      Q (UInt32.ofNat a) (s.graftEntry b.toNat j a)) :
    wp (loadEntry b j) Q E s := by
  simp only [loadEntry, wp_bind, wp_bread hb]
  split
  · next h0 =>
    simp only [wp_bind, wp_bmodify, wp_pure]
    refine wp_balloc hwf hlog hout fun a ha hfree hfirst hin => ?_
    have hfit : s.FirstFree a := ⟨ha, hfree, hfirst⟩
    rw [hkeep a hfit]
    exact wp_logWrite (MayLog.write (hlog.congr rfl)) fun _ => hnone h0 hin a hfit
  · next h0 => exact hsome h0

end Levels

/-! ## Whole paths -/

section Paths

variable {E : Stop → Prop} {I : Fs → Prop} {k : Nat × Fin NADDRS}

/-- `I` survives the allocations below the root of `k` on the path `path`. -/
def EntryStep (I : Fs → Prop) (k : Nat × Fin NADDRS) (path : List Nat) : Prop :=
  ∀ t js j a, t.Wf → I t → js ++ [j] <+: path → t.forest.node k js ≠ 0 →
    t.forest.node k (js ++ [j]) = 0 → t.FirstFree a →
    I (t.graftEntry (t.forest.node k js).toNat j a)

theorem wp_walk (hout : E .ballocOutOfBlocks) {path : List Nat}
    (hpath : blockShape.Path k path) (hentry : EntryStep I k path) :
    ∀ (ls js : List Nat) (s : Fs), js ++ ls = path → s.Wf → MayLog E s →
      s.forest.node k js ≠ 0 → I s →
      wp (walk (s.forest.node k js) ls) (fun a s' => I s' ∧ s'.Wf ∧ Fs.Grow s s' ∧ a ≠ 0 ∧
        s'.forest.node k path = a ∧ (s.forest.node k path = 0 → 1 ≤ s.log.outstanding)) E s := by
  -- the walk has come down `js` and has `ls` to go
  intro ls
  induction ls with
  | nil =>
    intro js s hsplit hwf hlog hne hI
    rw [List.append_nil] at hsplit
    subst hsplit
    exact ⟨hI, hwf, .refl s, hne, rfl, fun h0 => absurd h0 hne⟩
  | cons j ls ih =>
    intro js s hsplit hwf hlog hne hI
    have hsplit' : (js ++ [j]) ++ ls = path := by simpa using hsplit
    have hp : blockShape.Path k (js ++ [j]) := (hsplit' ▸ hpath).append_left
    have hnode : s.forest.node k (js ++ [j]) = (s.disk (s.forest.node k js).toNat).word j :=
      Forest.node_concat_of_ne hne
    simp only [walk, wp_bind]
    refine wp_loadEntry hwf.sbWf hlog hout (hwf.node_lt_FSSIZE hp.init hne)
      (fun a ha => hwf.disk_alloc_node ha.lt ha.free hp.init hne) (fun hsome => ?_) fun hnone hin a ha => ?_
    · rw [← hnode] at hsome ⊢
      exact ih (js ++ [j]) s hsplit' hwf hlog hsome hI
    · have g := Fs.graftEntry_step hwf hp hne hnone ha.lt ha.free
      have hI' := hentry s js j a hwf hI ⟨ls, hsplit'⟩ hne (hnode.trans hnone) ha
      have hnew := g.graft.node_same hp
      have hnew0 := hwf.ofNat_ne_zero ha.lt ha.free
      have hrest := ih (js ++ [j]) _ hsplit' (g.wf hwf) (hlog.congr g.outstanding)
        (by rw [hnew]; exact hnew0) hI'
      rw [hnew] at hrest
      refine hrest.post ?_
      rintro b s' ⟨hI'', hwf', hgrow, hb, hpath', -⟩
      exact ⟨hI'', hwf', (g.grow hwf).trans hgrow, hb, hpath', fun _ => hin⟩

/-- `I` survives the allocations `bmap` makes for block `bn` of the inode `i` in `ip`. -/
structure BmapStep (I : Fs → Prop) (ip : InodePtr) (i bn : Nat) : Prop where
  root : ∀ t a, t.Wf → I t → t.Caches ip i → t.Allocated i →
    (t.icache ip).addrs (blockPath bn).1 = 0 → t.FirstFree a →
    I (t.graftRoot ip (blockPath bn).1 a)
  entry : EntryStep I (i, (blockPath bn).1) (blockPath bn).2

/-- Nothing to keep but what `bmap` keeps by itself. -/
theorem bmapStep_true (ip : InodePtr) (i bn : Nat) : BmapStep (fun _ => True) ip i bn :=
  ⟨fun _ _ _ _ _ _ _ _ => trivial, fun _ _ _ _ _ _ _ _ _ _ => trivial⟩

/-- `bmap` returns the address of the block, after growing the tree if need be. Only
    in a transaction does it return with a block that was not there. -/
theorem wp_bmap {s : Fs} {ip : InodePtr} {i bn : Nat}
    (hout : E .ballocOutOfBlocks) (hbn : bn < MAXFILE) (hstep : BmapStep I ip i bn)
    (hwf : s.Wf) (hip : s.Caches ip i) (hal : s.Allocated i) (hlog : MayLog E s)
    (hI : I s) :
    wp (bmap ip bn) (fun a s' => I s' ∧ s'.Wf ∧ Fs.Grow s s' ∧ a ≠ 0 ∧ s'.blockAddr i bn = a ∧
      (s.blockAddr i bn = 0 → 1 ≤ s.log.outstanding)) E s := by
  have hp := blockPath_path hbn i
  have hroot : s.forest.node (i, (blockPath bn).1) [] = (s.icache ip).addrs (blockPath bn).1 := by
    rw [Forest.node_nil, Fs.forest_root hal, Fs.view_of_caches hwf.cacheInj hip]
  have hwalk := wp_walk hout hp hstep.entry (blockPath bn).2 []
  simp only [bmap_eq_walk hbn, wp_bind, Fs.blockAddr_of_lt hbn]
  refine wp_loadAddr hwf.sbWf hlog hout (fun hsome => ?_) fun hnone hin a ha => ?_
  · rw [← hroot] at hsome ⊢
    exact hwalk s rfl hwf hlog hsome hI
  · have g := Fs.graftRoot_step hwf hip hal hnone ha.lt ha.free
    have hnew := g.graft.node_same Shape.Path.nil
    have hrest := hwalk _ rfl (g.wf hwf) (hlog.congr g.outstanding)
      (by rw [hnew]; exact hwf.ofNat_ne_zero ha.lt ha.free) (hstep.root s a hwf hI hip hal hnone ha)
    rw [hnew] at hrest
    refine hrest.post ?_
    rintro b s' ⟨hI', hwf', hgrow, hb, hpath, -⟩
    exact ⟨hI', hwf', (g.grow hwf).trans hgrow, hb, hpath, fun _ => hin⟩

end Paths

/-! ## Blocks that are there -/

theorem wp_walk_of_node {s : Fs} (hwf : s.Wf) {k : Nat × Fin NADDRS} {E : Stop → Prop}
    {Q : UInt32 → Fs → Prop} :
    ∀ (ls js : List Nat), blockShape.Path k (js ++ ls) → s.forest.node k (js ++ ls) ≠ 0 →
      (wp (walk (s.forest.node k js) ls) Q E s ↔ Q (s.forest.node k (js ++ ls)) s) := by
  intro ls
  induction ls with
  | nil =>
    intro js _ _
    rw [List.append_nil]
    rfl
  | cons j ls ih =>
    intro js hp hne
    have hsplit : js ++ j :: ls = (js ++ [j]) ++ ls := by simp
    rw [hsplit] at hp hne ⊢
    have hj : s.forest.node k (js ++ [j]) ≠ 0 := fun h0 => hne (Forest.node_append_eq_zero ls h0)
    have hjs : s.forest.node k js ≠ 0 := fun h0 => hj (Forest.node_append_eq_zero [j] h0)
    have hword : s.forest.node k (js ++ [j]) = (s.disk (s.forest.node k js).toNat).word j :=
      Forest.node_concat_of_ne hjs
    rw [← ih (js ++ [j]) hp hne]
    rw [hword] at hj ⊢
    simp only [walk, loadEntry, wp_bind, wp_bread (hwf.node_lt_FSSIZE hp.append_left.init hjs),
      if_neg hj, wp_pure]

/-- On a block that is there `bmap` looks it up and changes nothing, inside a
    transaction or not. -/
theorem wp_bmap_of_mapped {s : Fs} (hwf : s.Wf) {ip : InodePtr} {i bn : Nat} (hip : s.Caches ip i)
    (hal : s.Allocated i) (hne : s.blockAddr i bn ≠ 0) {E : Stop → Prop} {Q : UInt32 → Fs → Prop} :
    wp (bmap ip bn) Q E s ↔ Q (s.blockAddr i bn) s := by
  by_cases hbn : bn < MAXFILE
  · have hp := blockPath_path hbn i
    rw [Fs.blockAddr_of_lt hbn] at hne ⊢
    have hroot : s.forest.node (i, (blockPath bn).1) [] = (s.icache ip).addrs (blockPath bn).1 := by
      rw [Forest.node_nil, Fs.forest_root hal, Fs.view_of_caches hwf.cacheInj hip]
    have hne0 : (s.icache ip).addrs (blockPath bn).1 ≠ 0 := by
      rw [← hroot]
      exact fun h0 => hne (Forest.node_append_eq_zero (blockPath bn).2 h0)
    have hwalk := wp_walk_of_node (Q := Q) (E := E) hwf (blockPath bn).2 [] hp hne
    rw [hroot] at hwalk
    simp only [bmap_eq_walk hbn, loadAddr, wp_bind, wp_deref, if_neg hne0, wp_pure]
    exact hwalk
  · simp [Fs.blockAddr, hbn] at hne

end Xv6
