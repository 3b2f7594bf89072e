-- SUMMARY: When the operations of the file system find a buffer, and when the cache runs dry.
import Mathlib.Algebra.Order.BigOperators.Group.Finset
import Xv6.Disk.Coherence
import Xv6.Disk.Operations

/-! # The supply of buffers

A buffer cannot be recycled while its block is in the log or somebody uses it. The log
reserves `MAXOPBLOCKS` blocks for each operation that is under way. If no operation has
more than that many blocks dirtied or in use together, there are enough buffers. The
kernel does not see to it: `begin_op` counts the blocks that are dirtied only.
-/

namespace Xv6.Bio

/-! ## Pinned blocks -/

section Cache

variable {Data : Type} {s t : State Data} {u b c : Nat} {x : Use} {i j : Slot}

/-- The block is in a dirty buffer. -/
def State.Pinned (s : State Data) (b : Nat) : Prop := ∃ i, s.caches b i = true ∧ (s.buf i).dirty = true

/-- No buffer got dirty. -/
def Quiet (s t : State Data) : Prop :=
  ∀ j, (t.buf j).dirty = true → (s.buf j).dirty = true ∧ (t.buf j).identity = (s.buf j).identity

theorem Quiet.pinned (h : Quiet s t) (hc : t.Pinned c) : s.Pinned c := by
  obtain ⟨j, hj, hdirty⟩ := hc
  obtain ⟨hs, hid⟩ := h j hdirty
  obtain ⟨hdev, hblock⟩ := State.caches_iff.mp hj
  obtain ⟨h1, h2⟩ := Prod.mk.inj hid
  exact ⟨j, State.caches_iff.mpr ⟨h1 ▸ hdev, h2 ▸ hblock⟩, hs⟩

theorem Quiet.update {y : Buf Data} (hbuf : t.buf = Function.update s.buf i y)
    (hy : y.dirty = true → (s.buf i).dirty = true ∧ y.identity = (s.buf i).identity) : Quiet s t := by
  intro j hj
  rw [hbuf] at hj ⊢
  by_cases hji : j = i
  · subst hji
    rw [Function.update_self] at hj ⊢
    exact hy hj
  · rw [Function.update_of_ne hji] at hj ⊢
    exact ⟨hj, rfl⟩

theorem Quiet.iderw : Quiet s (s.iderw i) := by
  unfold State.iderw
  split <;> exact .update rfl fun h => absurd h Bool.false_ne_true

/-- Only `log_write` and `bwrite` pin a block. -/
theorem Inv.pinned_step (h : Inv s) {a : Action Data} (hstep : Bio.step s a = some t) (hc : t.Pinned c) :
    s.Pinned c ∨ ∃ u x, (a = .logWrite u ∨ a = .bwrite u) ∧ s.use u = some x ∧ x.block = c := by
  have hmark : ∀ {u : Nat} {x : Use} {y : Option Use}, s.use u = some x → ((s.mark x.slot).setUse u y).Pinned c →
      s.Pinned c ∨ x.block = c := by
    rintro u x y hx ⟨j, hj, hdirty⟩
    by_cases hjx : j = x.slot
    · refine .inr ((h.blockno_eq hx).symm.trans ?_)
      have hblock := (State.caches_iff.mp hj).2
      rw [hjx] at hblock
      simpa only [State.setUse_buf, State.mark, State.updBuf_same] using hblock
    · have hother : ((s.mark x.slot).setUse u y).buf j = s.buf j := Function.update_of_ne hjx _ _
      rw [State.caches_iff, hother] at hj
      rw [hother] at hdirty
      exact .inl ⟨j, State.caches_iff.mpr hj, hdirty⟩
  cases a with
  | bread u b =>
    simp only [Bio.step, Option.ite_none_right_eq_some, Option.map_eq_some_iff] at hstep
    obtain ⟨-, ⟨v, k⟩, hget, rfl⟩ := hstep
    refine .inl (Quiet.pinned (t := State.setUse v u _) ?_ hc)
    rcases h.bget_cases hget with ⟨-, rfl⟩ | ⟨-, -, rfl⟩
    · exact .update rfl fun hd => ⟨hd, rfl⟩
    · exact .update rfl fun hd => absurd hd Bool.false_ne_true
  | lock u =>
    simp only [Bio.step, Option.ite_none_right_eq_some] at hstep
    obtain ⟨x, -, -, rfl⟩ := State.of_turn hstep.2
    refine .inl (Quiet.pinned ?_ hc)
    exact .update rfl fun hd => ⟨hd, rfl⟩
  | read u =>
    rw [Bio.step] at hstep
    obtain ⟨x, -, -, rfl⟩ := State.of_turn hstep
    refine .inl (Quiet.pinned (s := s) ?_ hc)
    split
    · exact fun _ hd => ⟨hd, rfl⟩
    · exact Quiet.iderw
  | store u data =>
    rw [Bio.step] at hstep
    obtain ⟨x, -, -, rfl⟩ := State.of_turn hstep
    refine .inl (Quiet.pinned ?_ hc)
    exact .update rfl fun hd => ⟨hd, rfl⟩
  | logWrite u =>
    rw [Bio.step] at hstep
    obtain ⟨x, hx, -, rfl⟩ := State.of_turn hstep
    exact (hmark hx hc).imp_right fun hb => ⟨u, x, .inl rfl, hx, hb⟩
  | bwrite u =>
    rw [Bio.step] at hstep
    obtain ⟨x, hx, -, rfl⟩ := State.of_turn hstep
    exact (hmark hx hc).imp_right fun hb => ⟨u, x, .inr rfl, hx, hb⟩
  | written u =>
    rw [Bio.step] at hstep
    obtain ⟨x, -, -, rfl⟩ := State.of_turn hstep
    exact .inl (Quiet.pinned (s := s) Quiet.iderw hc)
  | brelse u =>
    rw [Bio.step] at hstep
    obtain ⟨x, -, -, rfl⟩ := State.of_turn hstep
    refine .inl (Quiet.pinned ?_ hc)
    exact .update rfl fun hd => ⟨hd, rfl⟩
  | unref u =>
    rw [Bio.step] at hstep
    obtain ⟨x, -, -, rfl⟩ := State.of_turn hstep
    refine .inl (Quiet.pinned (s := s) ?_ hc)
    unfold State.unref
    split <;> exact .update rfl fun hd => ⟨hd, rfl⟩

/-- What is written to disk is pinned no more. -/
theorem Inv.not_pinned_written (h : Inv s) (hx : s.use u = some x) (hstep : Bio.step s (.written u) = some t) :
    ¬ t.Pinned x.block := by
  rw [Bio.step] at hstep
  obtain ⟨y, hy, -, rfl⟩ := State.of_turn hstep
  obtain rfl : y = x := Option.some.inj (hy.symm.trans hx)
  rintro ⟨j, hj, hdirty⟩
  have hid : ((s.iderw y.slot).buf j).identity = (s.buf j).identity := identity_iderw
  obtain ⟨hdev, hblock⟩ := Prod.mk.inj hid
  have hcaches : s.caches y.block j = true := by
    have hj := State.caches_iff.mp hj
    rw [State.setUse_buf] at hj
    exact State.caches_iff.mpr ⟨hdev ▸ hj.1, hblock ▸ hj.2⟩
  obtain rfl := h.slot_eq hx hcaches
  have hclean : ((s.iderw y.slot).buf y.slot).dirty = false := by
    unfold State.iderw
    split <;> simp only [State.updBuf_same]
  exact Bool.false_ne_true (hclean.symm.trans hdirty)

/-- If the blocks in buffers that cannot be recycled are few, `bget` finds a buffer. -/
theorem Inv.bget_isSome (h : Inv s) {S : Finset Nat} (hS : (S.erase b).card < NBUF)
    (hused : ∀ {c}, s.Pinned c ∨ (∃ u x, s.use u = some x ∧ x.block = c) → c ∈ S) : (s.bget b).isSome := by
  obtain ⟨l, hl, hall⟩ := h.cycle
  have hlen : l.length < NBUF + 1 := Nat.lt_succ_of_le (hl.nodup.length_le_card.trans (Fintype.card_fin NBUF).le)
  rw [State.bget, hl.walk_next hlen, hl.walk_prev hlen]
  cases hfind : l.find? (s.caches b) with
  | some k => rfl
  | none =>
    cases hlast : l.reverse.find? s.unused with
    | some k => rfl
    | none =>
      -- All buffers are used, by different blocks.
      exfalso
      have hmem : ∀ i, (s.buf i).dev = ROOTDEV ∧ (s.buf i).blockno ∈ S := by
        intro i
        have hi : ¬ s.unused i = true := List.find?_eq_none.mp hlast i (List.mem_reverse.mpr (hall i))
        by_cases hdirty : (s.buf i).dirty = true
        · have hdev := (h.dirty hdirty).2
          exact ⟨hdev, hused (.inl ⟨i, State.caches_iff.mpr ⟨hdev, rfl⟩, hdirty⟩)⟩
        · obtain ⟨U, hU, hcard⟩ := h.counted i
          have hpos : U.Nonempty := by
            rw [← Finset.card_pos, hcard]
            refine Nat.pos_of_ne_zero fun hzero => hi (State.unused_iff.mpr ⟨hzero, ?_⟩)
            exact Bool.eq_false_iff.mpr hdirty
          obtain ⟨u, hu⟩ := hpos
          obtain ⟨x, hx, rfl⟩ := (hU u).mp hu
          exact ⟨(State.caches_iff.mp (h.uses hx)).1, hused (.inr ⟨u, x, hx, (h.blockno_eq hx).symm⟩)⟩
      have hmaps : ∀ i ∈ (Finset.univ : Finset Slot), (s.buf i).blockno ∈ S.erase b := by
        intro i _
        refine Finset.mem_erase.mpr ⟨fun hb => ?_, (hmem i).2⟩
        exact List.find?_eq_none.mp hfind i (hall i) (State.caches_iff.mpr ⟨(hmem i).1, hb⟩)
      have hinj : Set.InjOn (fun i : Slot => (s.buf i).blockno) (Finset.univ : Finset Slot) := by
        intro i _ j _ hij
        exact h.unique (State.caches_iff.mpr ⟨(hmem i).1, rfl⟩) (State.caches_iff.mpr ⟨(hmem j).1, hij.symm⟩)
      have hle := Finset.card_le_card_of_injOn _ hmaps hinj
      rw [Finset.card_univ, Fintype.card_fin] at hle
      exact absurd hS (Nat.not_lt.mpr hle)

end Cache

/-! ## The use of one buffer by one process -/

section Uses

variable {s t : State Unit} {k b : Nat} {op : Io}

theorem useOf_inj {k' b' : Nat} (h : useOf k b = useOf k' b') : k = k' ∧ b = b' := Nat.pair_eq_pair.mp h

/-- A turn changes one use only, and the use stays with its block. -/
theorem use_turn {f : Slot → State Unit} {points : List Point} {next : Option Point} {u : Nat}
    (h : s.turn u points f next = some t) (hf : ∀ i, (f i).use = s.use) :
    ∃ x, s.use u = some x ∧ t.use = Function.update s.use u (next.map fun p => { x with point := p }) := by
  obtain ⟨x, hx, -, rfl⟩ := State.of_turn h
  refine ⟨x, hx, ?_⟩
  rw [State.setUse, hf]

theorem use_iderw {i : Slot} : (s.iderw i).use = s.use := by
  unfold State.iderw
  split <;> rfl

theorem use_unref {i : Slot} : (s.unref i).use = s.use := by
  unfold State.unref
  split <;> rfl

/-- `bget` begins a use, `unref` ends it, and nothing else does. -/
theorem Inv.use_action (h : Inv s) (hstep : Bio.step s (op.action k b) = some t) :
    (op = .bget ∧ ∃ x, x.block = b ∧ t.use = Function.update s.use (useOf k b) (some x)) ∨
    (op = .unref ∧ (∃ x, s.use (useOf k b) = some x) ∧ t.use = Function.update s.use (useOf k b) none) ∨
    (op ≠ .bget ∧ op ≠ .unref ∧ ∃ x p, s.use (useOf k b) = some x ∧
      t.use = Function.update s.use (useOf k b) (some { x with point := p })) := by
  cases op <;> simp only [Io.action, Bio.step] at hstep
  case bget =>
    simp only [Option.ite_none_right_eq_some, Option.map_eq_some_iff] at hstep
    obtain ⟨-, ⟨v, i⟩, hget, rfl⟩ := hstep
    refine .inl ⟨rfl, ⟨b, i, .locking⟩, rfl, ?_⟩
    rcases h.bget_cases hget with ⟨-, rfl⟩ | ⟨-, -, rfl⟩ <;> rfl
  case unref =>
    obtain ⟨x, hx, ht⟩ := use_turn hstep fun _ => use_unref
    exact .inr (.inl ⟨rfl, ⟨x, hx⟩, ht⟩)
  case lock =>
    simp only [Option.ite_none_right_eq_some] at hstep
    obtain ⟨x, hx, ht⟩ := use_turn hstep.2 fun _ => rfl
    exact .inr (.inr ⟨Io.noConfusion, Io.noConfusion, x, _, hx, ht⟩)
  case read =>
    have hf : ∀ i, (if (s.buf i).valid = true then s else s.iderw i).use = s.use := by
      intro i
      split
      · rfl
      · exact use_iderw
    obtain ⟨x, hx, ht⟩ := use_turn hstep hf
    exact .inr (.inr ⟨Io.noConfusion, Io.noConfusion, x, _, hx, ht⟩)
  case written =>
    obtain ⟨x, hx, ht⟩ := use_turn hstep fun _ => use_iderw
    exact .inr (.inr ⟨Io.noConfusion, Io.noConfusion, x, _, hx, ht⟩)
  all_goals
    obtain ⟨x, hx, ht⟩ := use_turn hstep fun _ => rfl
    exact .inr (.inr ⟨Io.noConfusion, Io.noConfusion, x, _, hx, ht⟩)

end Uses

/-! ## The machine -/

variable {m n : Machine} {k : Nat} {w : Worker} {sb : Superblock}

theorem Worker.after_rest {rest : Program} {b : Nat} {op : Io} : (w.after rest b op).rest = rest := by
  cases op <;> rfl

theorem Worker.after_committing {rest : Program} {b : Nat} {op : Io} :
    (w.after rest b op).committing = w.committing := by
  cases op <;> rfl

/-- Who uses a buffer knows of it. -/
structure Machine.Tracked (m : Machine) : Prop where
  cache : Inv m.cache
  uses : ∀ {k b x}, m.cache.use (useOf k b) = some x → x.block = b ∧ ∃ w, m.worker k = some w ∧ b ∈ w.held

/-- Somebody uses the buffer of the block. -/
def Machine.Held (m : Machine) (b : Nat) : Prop := ∃ k w, m.worker k = some w ∧ b ∈ w.held

theorem Machine.Tracked.held (h : m.Tracked) {u : Nat} {x : Use} (hx : m.cache.use u = some x) : m.Held x.block := by
  have hu : useOf (Nat.unpair u).1 (Nat.unpair u).2 = u := Nat.pair_unpair u
  rw [← hu] at hx
  obtain ⟨hb, w, hw, hheld⟩ := h.uses hx
  exact ⟨_, w, hw, hb ▸ hheld⟩

/-- The worker of `k` changes, and has no use if it is none. -/
theorem Machine.Tracked.setWorker (h : m.Tracked) {w' : Option Worker} (hcache : n.cache = m.cache)
    (hworker : n.worker = Function.update m.worker k w') (hw : ∀ w, m.worker k = some w → w.held = ∅) : n.Tracked := by
  refine ⟨hcache ▸ h.cache, ?_⟩
  intro j b x hx
  rw [hcache] at hx
  obtain ⟨hb, w, hj, hheld⟩ := h.uses hx
  refine ⟨hb, w, ?_, hheld⟩
  rw [hworker, Function.update_of_ne]
  · exact hj
  · rintro rfl
    rw [hw w hj] at hheld
    exact Finset.notMem_empty b hheld

/-- The next thing of a program. -/
theorem Machine.run_cases (h : m.run sb k w = some n) :
    (∃ rest, w.rest = .clear :: rest ∧ n = setWorker { m with lh := [] } k (some { w with rest := rest })) ∨
    ∃ op b rest cache, w.rest = .io op b :: rest ∧ m.logOk sb op = true ∧
      Bio.step m.cache (op.action k b) = some cache ∧
      n = setWorker { m with cache := cache, lh := m.record b op } k (some (w.after rest b op)) := by
  unfold run at h
  split at h
  · exact absurd h.symm (Option.some_ne_none n)
  · next rest hrest => exact .inl ⟨rest, hrest, (Option.some.inj h).symm⟩
  · next op b rest hrest =>
    simp only [Option.ite_none_right_eq_some, Option.map_eq_some_iff] at h
    obtain ⟨hok, cache, hstep, rfl⟩ := h
    exact .inr ⟨op, b, rest, cache, hrest, hok, hstep, rfl⟩

/-- Who does something with a buffer other than `bget` has it. -/
theorem Machine.Tracked.mem_held (h : m.Tracked) (hw : m.worker k = some w) {op : Io} {b : Nat} {cache : State Unit}
    (hstep : Bio.step m.cache (op.action k b) = some cache) (hop : op ≠ .bget) : b ∈ w.held := by
  have huse : ∃ x, m.cache.use (useOf k b) = some x := by
    rcases h.cache.use_action hstep with ⟨rfl, -⟩ | ⟨-, hx, -⟩ | ⟨-, -, x, p, hx, -⟩
    · exact absurd rfl hop
    · exact hx
    · exact ⟨x, hx⟩
  obtain ⟨x, hx⟩ := huse
  obtain ⟨-, w', hw', hheld⟩ := h.uses hx
  rw [hw] at hw'
  exact Option.some.inj hw' ▸ hheld

/-- The other uses stay as they are. -/
theorem Inv.use_action_of_ne {s t : State Unit} {b u : Nat} {op : Io} (h : Inv s)
    (hstep : Bio.step s (op.action k b) = some t) (hu : u ≠ useOf k b) : t.use u = s.use u := by
  rcases h.use_action hstep with ⟨-, x, -, ht⟩ | ⟨-, -, ht⟩ | ⟨-, -, x, p, -, ht⟩ <;>
    rw [ht, Function.update_of_ne hu]

theorem Worker.mem_after_of_ne {rest : Program} {b c : Nat} {op : Io} (hc : c ∈ w.held) (hne : c ≠ b) :
    c ∈ (w.after rest b op).held := by
  cases op with
  | bget => exact Finset.mem_insert_of_mem hc
  | unref => exact Finset.mem_erase.mpr ⟨hne, hc⟩
  | _ => exact hc

theorem Machine.Tracked.io (h : m.Tracked) (hw : m.worker k = some w) {op : Io} {b : Nat} {rest : Program}
    {cache : State Unit} (hstep : Bio.step m.cache (op.action k b) = some cache) (hcache : n.cache = cache)
    (hworker : n.worker = Function.update m.worker k (some (w.after rest b op))) : n.Tracked := by
  subst hcache
  refine ⟨h.cache.step hstep, ?_⟩
  intro j c x hx
  by_cases hjc : useOf j c = useOf k b
  · obtain ⟨rfl, rfl⟩ := useOf_inj hjc
    have hmine : n.worker j = some (w.after rest c op) := by rw [hworker, Function.update_self]
    rcases h.cache.use_action hstep with ⟨rfl, y, hy, ht⟩ | ⟨rfl, -, ht⟩ | ⟨hget, hunref, y, p, hy, ht⟩
    · rw [ht, Function.update_self] at hx
      exact ⟨Option.some.inj hx ▸ hy, _, hmine, Finset.mem_insert_self _ _⟩
    · rw [ht, Function.update_self] at hx
      exact absurd hx.symm (Option.some_ne_none x)
    · rw [ht, Function.update_self] at hx
      have hblock : y.block = c := (h.uses hy).1
      have hheld : c ∈ w.held := h.mem_held hw hstep hget
      refine ⟨Option.some.inj hx ▸ hblock, _, hmine, ?_⟩
      cases op <;> first | exact hheld | exact absurd rfl hget | exact absurd rfl hunref
  · rw [h.cache.use_action_of_ne hstep hjc] at hx
    obtain ⟨hc, v, hv, hheld⟩ := h.uses hx
    by_cases hj : j = k
    · subst hj
      rw [hw] at hv
      obtain rfl := Option.some.inj hv
      refine ⟨hc, _, by rw [hworker, Function.update_self], Worker.mem_after_of_ne hheld ?_⟩
      rintro rfl
      exact hjc rfl
    · exact ⟨hc, v, by rw [hworker, Function.update_of_ne hj, hv], hheld⟩

/-! ## The commit -/

/-- A program that runs alone finds a buffer each time, if at most the blocks of `D` are
    pinned and those of `H` are in use; in the end there are none of either. -/
def Fits : Finset Nat → Finset Nat → Program → Prop
  | D, H, [] => D = ∅ ∧ H = ∅
  | D, H, .clear :: p => Fits D H p
  | D, H, .io op b :: p =>
    match op with
    | .bget => ((D ∪ H).erase b).card < NBUF ∧ Fits D (insert b H) p
    | .logWrite | .bwrite => Fits (insert b D) H p
    | .written => Fits (D.erase b) H p
    | .unref => Fits D (H.erase b) p
    | .lock | .read | .brelse => Fits D H p

section Commit

variable {D L : Finset Nat} {p : Program}

/-- What is written is taken out of `D`. -/
theorem erase_insert_subset {b : Nat} (hD : D ⊆ L) : (insert b D).erase b ⊆ L :=
  (Finset.erase_insert_subset b D).trans hD

theorem fits_writeHead (hL : L.card < NBUF) (hp : ∀ D ⊆ L, Fits D ∅ p) (hD : D ⊆ L) :
    Fits D ∅ (writeHead sb ++ p) := by
  refine ⟨?_, ?_⟩
  · rw [Finset.union_empty]
    exact ((Finset.card_le_card (Finset.erase_subset _ D)).trans (Finset.card_le_card hD)).trans_lt hL
  · change Fits ((insert sb.logstart D).erase sb.logstart) ((insert sb.logstart ∅ : Finset Nat).erase sb.logstart) p
    rw [Finset.erase_insert (Finset.notMem_empty _)]
    exact hp _ (erase_insert_subset hD)

theorem fits_writeLog (hL : L.card < NBUF) (hp : ∀ D ⊆ L, Fits D ∅ p) {items : List (Nat × Nat)}
    (hitems : ∀ q ∈ items, q.1 ∈ L) (hD : D ⊆ L) :
    Fits D ∅ (items.flatMap (fun q => copyToLog (sb.logstart + q.2 + 1) q.1) ++ p) := by
  induction items generalizing D with
  | nil => exact hp D hD
  | cons q items ih =>
    obtain ⟨b, tail⟩ := q
    have hb : b ∈ L := hitems (b, tail) List.mem_cons_self
    have hrest := ih (fun q hq => hitems q (List.mem_cons_of_mem _ hq))
      (erase_insert_subset (b := sb.logstart + tail + 1) hD)
    rw [List.flatMap_cons, List.append_assoc]
    generalize sb.logstart + tail + 1 = dst at hrest ⊢
    refine ⟨?_, ?_, ?_⟩
    · rw [Finset.union_empty]
      exact ((Finset.card_le_card (Finset.erase_subset _ D)).trans (Finset.card_le_card hD)).trans_lt hL
    · -- With the block to copy these are as many as before.
      have hsub : (D ∪ insert dst ∅).erase b ⊆ insert dst (L.erase b) := by
        intro c hc
        simp only [Finset.mem_erase, Finset.mem_union, Finset.mem_insert, Finset.notMem_empty, or_false] at hc ⊢
        exact hc.2.symm.imp_right fun h => ⟨hc.1, hD h⟩
      have hcard := (Finset.card_le_card hsub).trans (Finset.card_insert_le dst (L.erase b))
      rw [Finset.card_erase_add_one hb] at hcard
      exact hcard.trans_lt hL
    · have hempty : ((insert b (insert dst ∅) : Finset Nat).erase b).erase dst = ∅ := by
        ext c
        simp only [Finset.mem_erase, Finset.mem_insert, Finset.notMem_empty, or_false, iff_false]
        tauto
      change Fits ((insert dst D).erase dst) (((insert b (insert dst ∅) : Finset Nat).erase b).erase dst) _
      rw [hempty]
      exact hrest

theorem fits_installTrans (hp : Fits ∅ ∅ p) {items : List (Nat × Nat)} (hlen : items.length < NBUF)
    (hD : D ⊆ (items.map Prod.fst).toFinset) :
    Fits D ∅ (items.flatMap (fun q => copyHome (sb.logstart + q.2 + 1) q.1) ++ p) := by
  induction items generalizing D with
  | nil => exact (Finset.subset_empty.mp hD) ▸ hp
  | cons q items ih =>
    obtain ⟨b, tail⟩ := q
    rw [List.length_cons] at hlen
    have hcard : (items.map Prod.fst).toFinset.card ≤ items.length :=
      (List.toFinset_card_le _).trans (List.length_map _).le
    have hsubD : D ⊆ insert b (items.map Prod.fst).toFinset := by simpa using hD
    have hafter : (insert b D).erase b ⊆ (items.map Prod.fst).toFinset := by
      intro c hc
      simp only [Finset.mem_erase, Finset.mem_insert] at hc
      exact (Finset.mem_insert.mp (hsubD (hc.2.resolve_left hc.1))).resolve_left hc.1
    have hrest := ih (Nat.lt_of_succ_lt hlen) hafter
    rw [List.flatMap_cons, List.append_assoc]
    generalize sb.logstart + tail + 1 = lbuf at hrest ⊢
    refine ⟨?_, ?_, ?_⟩
    · rw [Finset.union_empty]
      have hle := (Finset.card_le_card ((Finset.erase_subset lbuf D).trans hsubD)).trans (Finset.card_insert_le _ _)
      exact hle.trans_lt ((Nat.add_le_add_right hcard 1).trans_lt hlen)
    · have hsub : (D ∪ insert lbuf ∅).erase b ⊆ insert lbuf (items.map Prod.fst).toFinset := by
        intro c hc
        simp only [Finset.mem_erase, Finset.mem_union, Finset.mem_insert, Finset.notMem_empty, or_false] at hc ⊢
        exact hc.2.symm.imp_right fun h => (Finset.mem_insert.mp (hsubD h)).resolve_left hc.1
      have hle := (Finset.card_le_card hsub).trans (Finset.card_insert_le _ _)
      exact hle.trans_lt ((Nat.add_le_add_right hcard 1).trans_lt hlen)
    · have hempty : ((insert b (insert lbuf ∅) : Finset Nat).erase lbuf).erase b = ∅ := by
        ext c
        simp only [Finset.mem_erase, Finset.mem_insert, Finset.notMem_empty, or_false, iff_false]
        tauto
      change Fits ((insert b D).erase b) (((insert b (insert lbuf ∅) : Finset Nat).erase lbuf).erase b) _
      rw [hempty]
      exact hrest

/-- A commit finds its buffers and unpins all blocks of the log. -/
theorem fits_commit {lh : List Nat} (hlen : lh.length < NBUF) : Fits lh.toFinset ∅ (commit sb lh) := by
  unfold commit
  split
  · have hcard : lh.toFinset.card < NBUF := (List.toFinset_card_le lh).trans_lt hlen
    have hfst : lh.zipIdx.map Prod.fst = lh := List.zipIdx_map_fst 0 lh
    have hdone : ∀ D ⊆ (∅ : Finset Nat), Fits D ∅ [] := fun D hD => ⟨Finset.subset_empty.mp hD, rfl⟩
    have hclear : Fits ∅ ∅ (.clear :: writeHead sb) := by
      have hhead : Fits ∅ ∅ (writeHead sb ++ []) := fits_writeHead (by decide) hdone (Finset.Subset.refl ∅)
      rwa [List.append_nil] at hhead
    have hinstall : ∀ D ⊆ lh.toFinset, Fits D ∅ (installTrans sb lh ++ .clear :: writeHead sb) := by
      intro D hD
      refine fits_installTrans hclear ?_ ?_
      · rwa [List.length_zipIdx]
      · rwa [hfst]
    have hhead : ∀ D ⊆ lh.toFinset, Fits D ∅ (writeHead sb ++ (installTrans sb lh ++ .clear :: writeHead sb)) :=
      fun D hD => fits_writeHead hcard hinstall hD
    have hitems : ∀ q ∈ lh.zipIdx, q.1 ∈ lh.toFinset := by
      intro q hq
      rw [List.mem_toFinset, ← hfst]
      exact List.mem_map_of_mem hq
    have hlog : Fits lh.toFinset ∅ (writeLog sb lh ++ (writeHead sb ++ (installTrans sb lh ++ .clear :: writeHead sb))) :=
      fits_writeLog hcard hhead hitems (Finset.Subset.refl _)
    simpa only [List.append_assoc, List.singleton_append] using hlog
  · next hlh =>
    obtain rfl : lh = [] := List.eq_nil_of_length_eq_zero (Nat.eq_zero_of_not_pos hlh)
    exact ⟨rfl, rfl⟩

end Commit

/-! ## The invariant -/

/-- The blocks that the operation has dirtied or uses. -/
def Worker.touched (w : Worker) : Finset Nat := w.dirtied ∪ w.held

/-- Operations are under way: those of `P`. The blocks of `base` were dirtied by operations
    that have ended. -/
structure Machine.Working (m : Machine) (P base : Finset Nat) : Prop where
  idle : m.committing = false
  workers : ∀ {k}, k ∈ P ↔ ∃ w, m.worker k = some w
  count : P.card = m.outstanding
  room : base.card + m.outstanding * MAXOPBLOCKS ≤ LOGSIZE
  ended : base ⊆ m.lh.toFinset
  logged : ∀ {b}, b ∈ m.lh → b ∈ base ∨ ∃ k w, m.worker k = some w ∧ b ∈ w.dirtied
  pinned : ∀ {b}, m.cache.Pinned b → b ∈ m.lh
  short : m.lh.length < LOGSIZE
  operation : ∀ {k w}, m.worker k = some w → w.committing = false ∧ w.rest.all Ev.isOperation = true ∧
    w.dirtied ⊆ m.lh.toFinset ∧ w.touched.card ≤ MAXOPBLOCKS

/-- Process `k` commits, and nobody else does anything. -/
structure Machine.Committing (m : Machine) (k : Nat) (w : Worker) (D : Finset Nat) : Prop where
  busy : m.committing = true
  drained : m.outstanding = 0
  worker : m.worker k = some w
  alone : ∀ {j}, j ≠ k → m.worker j = none
  commits : w.committing = true
  pinned : ∀ {b}, m.cache.Pinned b → b ∈ D
  fits : Fits D w.held w.rest
  short : m.lh.length < LOGSIZE

inductive Machine.Phase (m : Machine) : Prop where
  | working (P base : Finset Nat) (h : m.Working P base)
  | committing (k : Nat) (w : Worker) (D : Finset Nat) (h : m.Committing k w D)

structure Machine.Supplied (m : Machine) : Prop where
  tracked : m.Tracked
  phase : m.Phase

/-- An operation asks for a block only if this and the blocks that it has dirtied or uses
    are not more than `MAXOPBLOCKS`. -/
def Within (m : Machine) : Turn → Prop
  | .run k => ∀ w b p, m.worker k = some w → w.committing = false → w.rest = .io .bget b :: p →
      (insert b w.touched).card ≤ MAXOPBLOCKS
  | _ => True

instance (m : Machine) : ∀ turn, Decidable (Within m turn)
  | .beginOp _ _ | .endOp _ | .committed _ => isTrue trivial
  | .run k => decidable_of_iff (∀ w ∈ m.worker k, w.committing = false → ∀ e ∈ w.rest.head?, ∀ b ∈ e.asks,
      (insert b w.touched).card ≤ MAXOPBLOCKS) (by
    constructor
    · intro h w b p hw hc hrest
      exact h w hw hc (.io .bget b) (by rw [hrest]; rfl) b rfl
    · intro h w hw hc e he b hb
      obtain ⟨p, hp⟩ := List.head?_eq_some_iff.mp he
      exact h w b p hw hc (by rw [hp, Ev.eq_of_asks hb]))

section Steps

variable {P base D : Finset Nat}

theorem Machine.mem_record {op : Io} {b c : Nat} (hc : c ∈ m.lh) : c ∈ m.record b op := by
  cases op <;> try exact hc
  simp only [record]
  split
  · exact hc
  · exact List.mem_append_left _ hc

theorem Machine.mem_record_logWrite {b : Nat} : b ∈ m.record b .logWrite := by
  simp only [record]
  split
  · assumption
  · exact List.mem_append_right _ List.mem_cons_self

theorem Machine.mem_of_mem_record {op : Io} {b c : Nat} (hc : c ∈ m.record b op) :
    c ∈ m.lh ∨ c = b ∧ op = .logWrite := by
  cases op <;> try exact .inl hc
  simp only [record] at hc
  split at hc
  · exact .inl hc
  · exact (List.mem_append.mp hc).imp_right fun h => ⟨List.mem_singleton.mp h, rfl⟩

/-- `log_write` checks that there is room for one block more. -/
theorem Machine.record_short (hsb : sb.nlog ≤ LOGSIZE) {op : Io} {b : Nat} (hok : m.logOk sb op = true)
    (hshort : m.lh.length < LOGSIZE) : (m.record b op).length < LOGSIZE := by
  cases op <;> try exact hshort
  simp only [logOk, decide_eq_true_eq] at hok
  simp only [record]
  split
  · exact hshort
  · rw [List.length_append, List.length_singleton]
    omega

/-- The next thing an operation does keeps within its limit. -/
theorem Worker.touched_after {rest : Program} {b : Nat} {op : Io} (hheld : op ≠ .bget → b ∈ w.held)
    (hw : w.touched.card ≤ MAXOPBLOCKS) (hget : op = .bget → (insert b w.touched).card ≤ MAXOPBLOCKS) :
    (w.after rest b op).touched.card ≤ MAXOPBLOCKS := by
  cases op <;> try exact hw
  case bget =>
    have heq : (w.after rest b .bget).touched = insert b w.touched := Finset.union_insert b _ _
    exact heq ▸ hget rfl
  case logWrite =>
    have heq : (w.after rest b .logWrite).touched = w.touched := by
      have hmem : b ∈ w.touched := Finset.mem_union_right _ (hheld Io.noConfusion)
      exact (Finset.insert_union b _ _).trans (Finset.insert_eq_of_mem hmem)
    exact heq ▸ hw
  case unref =>
    refine le_trans (Finset.card_le_card ?_) hw
    exact Finset.union_subset_union_right (Finset.erase_subset b w.held)

theorem Machine.Working.io (h : m.Working P base) (ht : m.Tracked) (hsb : sb.nlog ≤ LOGSIZE)
    (hw : m.worker k = some w) {op : Io} {b : Nat} {rest : Program} {cache : State Unit}
    (hrest : w.rest = .io op b :: rest) (hok : m.logOk sb op = true)
    (hstep : Bio.step m.cache (op.action k b) = some cache)
    (hget : op = .bget → (insert b w.touched).card ≤ MAXOPBLOCKS) :
    (setWorker { m with cache := cache, lh := m.record b op } k (some (w.after rest b op))).Working P base := by
  obtain ⟨hcommit, hops, hsub, hcard⟩ := h.operation hw
  rw [hrest, List.all_cons, Bool.and_eq_true] at hops
  have hheld : op ≠ .bget → b ∈ w.held := ht.mem_held hw hstep
  have hmine : (setWorker { m with cache := cache, lh := m.record b op } k (some (w.after rest b op))).worker k =
      some (w.after rest b op) := Function.update_self _ _ _
  have hother : ∀ {j}, j ≠ k → (setWorker { m with cache := cache, lh := m.record b op } k
      (some (w.after rest b op))).worker j = m.worker j := fun hj => Function.update_of_ne hj _ _
  have hdirtied : ∀ {c}, c ∈ (w.after rest b op).dirtied → c ∈ w.dirtied ∨ c = b ∧ op = .logWrite := by
    intro c hc
    cases op <;> try exact .inl hc
    exact (Finset.mem_insert.mp hc).symm.imp_right fun hcb => ⟨hcb, rfl⟩
  constructor
  case idle => exact h.idle
  case workers =>
    intro j
    by_cases hj : j = k
    · subst hj
      rw [hmine]
      exact iff_of_true (h.workers.mpr ⟨w, hw⟩) ⟨_, rfl⟩
    · rw [hother hj]
      exact h.workers
  case count => exact h.count
  case room => exact h.room
  case ended => exact fun c hc => List.mem_toFinset.mpr (mem_record (List.mem_toFinset.mp (h.ended hc)))
  case logged =>
    intro c hc
    rcases mem_of_mem_record hc with hc | ⟨rfl, rfl⟩
    · refine (h.logged hc).imp_right ?_
      rintro ⟨j, v, hv, hcv⟩
      by_cases hj : j = k
      · subst hj
        rw [hw] at hv
        obtain rfl := Option.some.inj hv
        refine ⟨j, _, hmine, ?_⟩
        cases op <;> try exact hcv
        exact Finset.mem_insert_of_mem hcv
      · exact ⟨j, v, (hother hj).trans hv, hcv⟩
    · exact .inr ⟨k, _, hmine, Finset.mem_insert_self _ _⟩
  case pinned =>
    intro c hc
    rcases ht.cache.pinned_step hstep hc with hc | ⟨u, x, ha, hx, hb⟩
    · exact mem_record (h.pinned hc)
    · -- The operation does not call `bwrite`, so it has logged the block.
      cases op <;> simp only [Io.action, reduceCtorEq, or_self, or_false, false_or, Action.logWrite.injEq] at ha
      · subst ha
        obtain rfl := (ht.uses hx).1.symm.trans hb
        exact mem_record_logWrite
      · exact absurd hops.1 Bool.false_ne_true
  case short => exact record_short hsb hok h.short
  case operation =>
    intro j v hv
    by_cases hj : j = k
    · subst hj
      rw [hmine] at hv
      obtain rfl := Option.some.inj hv
      rw [Worker.after_committing, Worker.after_rest]
      refine ⟨hcommit, hops.2, fun c hc => List.mem_toFinset.mpr ?_, Worker.touched_after hheld hcard hget⟩
      rcases hdirtied hc with hc | ⟨rfl, rfl⟩
      · exact mem_record (List.mem_toFinset.mp (hsub hc))
      · exact mem_record_logWrite
    · rw [hother hj] at hv
      obtain ⟨h1, h2, h3, h4⟩ := h.operation hv
      exact ⟨h1, h2, fun c hc => List.mem_toFinset.mpr (mem_record (List.mem_toFinset.mp (h3 hc))), h4⟩

/-- The blocks that may be pinned after the next thing that a commit does. -/
def pinnedAfter (D : Finset Nat) (b : Nat) : Io → Finset Nat
  | .logWrite | .bwrite => insert b D
  | .written => D.erase b
  | _ => D

theorem Machine.Committing.eq_of_worker {j : Nat} {v : Worker} (h : m.Committing k w D) (hv : m.worker j = some v) :
    j = k ∧ v = w := by
  have hj : j = k := by
    by_contra hj
    rw [h.alone hj] at hv
    exact Option.some_ne_none v hv.symm
  subst hj
  exact ⟨rfl, Option.some.inj (hv.symm.trans h.worker)⟩

theorem Machine.Committing.io (h : m.Committing k w D) (ht : m.Tracked) (hsb : sb.nlog ≤ LOGSIZE)
    {op : Io} {b : Nat} {rest : Program} {cache : State Unit}
    (hrest : w.rest = .io op b :: rest) (hok : m.logOk sb op = true)
    (hstep : Bio.step m.cache (op.action k b) = some cache) :
    (setWorker { m with cache := cache, lh := m.record b op } k (some (w.after rest b op))).Committing k
      (w.after rest b op) (pinnedAfter D b op) where
  busy := h.busy
  drained := h.drained
  worker := Function.update_self _ _ _
  alone := fun hj => (Function.update_of_ne hj _ _).trans (h.alone hj)
  commits := Worker.after_committing.trans h.commits
  pinned := by
    intro c hc
    have hmarked : ∀ {u x}, useOf k b = u → m.cache.use u = some x → x.block = c → c = b := by
      rintro u x rfl hx hb
      exact hb.symm.trans (ht.uses hx).1
    have hc' := ht.cache.pinned_step hstep hc
    cases op <;> simp only [Io.action, reduceCtorEq, false_or, or_false, or_self, false_and, exists_false,
      Action.logWrite.injEq, Action.bwrite.injEq] at hc'
    case logWrite =>
      rcases hc' with hc' | ⟨u, x, hu, hx, hb⟩
      · exact Finset.mem_insert_of_mem (h.pinned hc')
      · exact hmarked hu hx hb ▸ Finset.mem_insert_self _ _
    case bwrite =>
      rcases hc' with hc' | ⟨u, x, hu, hx, hb⟩
      · exact Finset.mem_insert_of_mem (h.pinned hc')
      · exact hmarked hu hx hb ▸ Finset.mem_insert_self _ _
    case written =>
      refine Finset.mem_erase.mpr ⟨?_, h.pinned hc'⟩
      rintro rfl
      rcases ht.cache.use_action hstep with ⟨ho, -⟩ | ⟨ho, -⟩ | ⟨-, -, x, p, hx, -⟩
      · exact Io.noConfusion ho
      · exact Io.noConfusion ho
      · have hclean := ht.cache.not_pinned_written hx hstep
        rw [(ht.uses hx).1] at hclean
        exact hclean hc
    all_goals exact h.pinned hc'
  fits := by
    have hfits := h.fits
    rw [hrest] at hfits
    cases op <;> first | exact hfits.2 | exact hfits
  short := record_short hsb hok h.short

theorem Machine.Supplied.run (h : m.Supplied) (hsb : sb.nlog ≤ LOGSIZE) (hw : m.worker k = some w)
    (hwithin : Within m (.run k)) (hrun : m.run sb k w = some n) : n.Supplied := by
  rcases run_cases hrun with ⟨rest, hrest, rfl⟩ | ⟨op, b, rest, cache, hrest, hok, hstep, rfl⟩
  · cases h.phase with
    | working P base hp =>
      have hops := (hp.operation hw).2.1
      rw [hrest, List.all_cons, Bool.and_eq_true] at hops
      exact absurd hops.1 Bool.false_ne_true
    | committing j v D hp =>
      obtain ⟨rfl, rfl⟩ := hp.eq_of_worker hw
      refine ⟨⟨h.tracked.cache, ?_⟩, .committing k { w with rest := rest } D ?_⟩
      · intro j c x hx
        obtain ⟨hb, u, hu, hheld⟩ := h.tracked.uses hx
        by_cases hj : j = k
        · subst hj
          obtain rfl : u = w := Option.some.inj (hu.symm.trans hw)
          exact ⟨hb, _, Function.update_self _ _ _, hheld⟩
        · exact ⟨hb, u, (Function.update_of_ne hj _ _).trans hu, hheld⟩
      · have hfits := hp.fits
        rw [hrest] at hfits
        exact ⟨hp.busy, hp.drained, Function.update_self _ _ _,
          fun hj => (Function.update_of_ne hj _ _).trans (hp.alone hj), hp.commits, hp.pinned, hfits,
          Nat.zero_lt_of_lt hp.short⟩
  · refine ⟨h.tracked.io hw hstep rfl rfl, ?_⟩
    cases h.phase with
    | working P base hp =>
      refine .working P base (hp.io h.tracked hsb hw hrest hok hstep ?_)
      rintro rfl
      exact hwithin w b rest hw (hp.operation hw).1 hrest
    | committing j v D hp =>
      obtain ⟨rfl, rfl⟩ := hp.eq_of_worker hw
      exact .committing k _ _ (hp.io h.tracked hsb hrest hok hstep)

theorem Machine.Supplied.beginOp (h : m.Supplied) {p : Program} (hnone : m.worker k = none)
    (hops : p.all Ev.isOperation = true) (hidle : m.committing = false)
    (hroom : m.lh.length + (m.outstanding + 1) * MAXOPBLOCKS ≤ LOGSIZE) :
    (setWorker { m with outstanding := m.outstanding + 1 } k (some ⟨p, false, ∅, ∅⟩)).Supplied := by
  refine ⟨h.tracked.setWorker rfl rfl fun w hw => absurd (hw.symm.trans hnone) (Option.some_ne_none w), ?_⟩
  cases h.phase with
  | committing j v D hp => exact absurd (hidle.symm.trans hp.busy) Bool.false_ne_true
  | working P base hp =>
    have hk : k ∉ P := fun hk => by
      obtain ⟨w, hw⟩ := hp.workers.mp hk
      exact Option.some_ne_none w (hw.symm.trans hnone)
    have hother : ∀ {j w}, m.worker j = some w → Function.update m.worker k (some ⟨p, false, ∅, ∅⟩) j = some w := by
      intro j w hw
      rw [Function.update_of_ne]
      · exact hw
      · rintro rfl
        exact Option.some_ne_none w (hw.symm.trans hnone)
    refine .working (insert k P) base ⟨hidle, ?_, ?_, ?_, hp.ended, ?_, hp.pinned, hp.short, ?_⟩
    · intro j
      rw [Finset.mem_insert, hp.workers]
      by_cases hj : j = k
      · subst hj
        exact iff_of_true (.inl rfl) ⟨_, Function.update_self _ _ _⟩
      · rw [show (setWorker { m with outstanding := m.outstanding + 1 } k (some ⟨p, false, ∅, ∅⟩)).worker j = m.worker j
          from Function.update_of_ne hj _ _]
        exact or_iff_right hj
    · rw [Finset.card_insert_of_notMem hk, hp.count]
      rfl
    · exact (Nat.add_le_add_right ((Finset.card_le_card hp.ended).trans (List.toFinset_card_le m.lh)) _).trans hroom
    · intro b hb
      refine (hp.logged hb).imp_right ?_
      rintro ⟨j, w, hw, hbw⟩
      exact ⟨j, w, hother hw, hbw⟩
    · intro j w hw
      by_cases hj : j = k
      · subst hj
        rw [show (setWorker { m with outstanding := m.outstanding + 1 } j (some ⟨p, false, ∅, ∅⟩)).worker j =
          some ⟨p, false, ∅, ∅⟩ from Function.update_self _ _ _] at hw
        obtain rfl := Option.some.inj hw
        exact ⟨rfl, hops, Finset.empty_subset _, Nat.zero_le _⟩
      · rw [show (setWorker { m with outstanding := m.outstanding + 1 } k (some ⟨p, false, ∅, ∅⟩)).worker j = m.worker j
          from Function.update_of_ne hj _ _] at hw
        exact hp.operation hw

/-- The last operation ends, and its process commits. -/
theorem Machine.Supplied.endLast (h : m.Supplied) (hw : m.worker k = some w) (hcommitting : w.committing = false)
    (hheld : w.held = ∅) (hlast : m.outstanding - 1 = 0) :
    (setWorker { m with outstanding := 0, committing := true } k (some ⟨commit sb m.lh, true, ∅, ∅⟩)).Supplied := by
  refine ⟨h.tracked.setWorker rfl rfl fun v hv => Option.some.inj (hw.symm.trans hv) ▸ hheld, ?_⟩
  cases h.phase with
  | committing j v D hp =>
    obtain ⟨-, rfl⟩ := hp.eq_of_worker hw
    exact absurd (hcommitting.symm.trans hp.commits) Bool.false_ne_true
  | working P base hp =>
    have hk : k ∈ P := hp.workers.mpr ⟨w, hw⟩
    have hone : P.card ≤ 1 := by
      rw [hp.count]
      exact Nat.le_of_sub_eq_zero hlast
    refine .committing k _ m.lh.toFinset ⟨rfl, rfl, Function.update_self _ _ _, ?_, rfl,
      fun hb => List.mem_toFinset.mpr (hp.pinned hb), fits_commit hp.short, hp.short⟩
    intro j hj
    refine (Function.update_of_ne hj _ _).trans ?_
    cases hv : m.worker j with
    | none => rfl
    | some v => exact absurd (Finset.card_le_one.mp hone j (hp.workers.mpr ⟨v, hv⟩) k hk) hj

/-- An operation ends while others are under way. -/
theorem Machine.Supplied.endOther (h : m.Supplied) (hw : m.worker k = some w) (hcommitting : w.committing = false)
    (hheld : w.held = ∅) : (setWorker { m with outstanding := m.outstanding - 1 } k none).Supplied := by
  refine ⟨h.tracked.setWorker rfl rfl fun v hv => Option.some.inj (hw.symm.trans hv) ▸ hheld, ?_⟩
  cases h.phase with
  | committing j v D hp =>
    obtain ⟨-, rfl⟩ := hp.eq_of_worker hw
    exact absurd (hcommitting.symm.trans hp.commits) Bool.false_ne_true
  | working P base hp =>
    have hk : k ∈ P := hp.workers.mpr ⟨w, hw⟩
    obtain ⟨-, -, hsub, hcard⟩ := hp.operation hw
    have hmine : (setWorker { m with outstanding := m.outstanding - 1 } k none).worker k = none :=
      Function.update_self _ _ _
    have hother : ∀ {j}, j ≠ k → (setWorker { m with outstanding := m.outstanding - 1 } k none).worker j = m.worker j :=
      fun hj => Function.update_of_ne hj _ _
    refine .working (P.erase k) (base ∪ w.dirtied) ⟨hp.idle, ?_, ?_, ?_, Finset.union_subset hp.ended hsub, ?_,
      hp.pinned, hp.short, ?_⟩
    · intro j
      rw [Finset.mem_erase, hp.workers]
      by_cases hj : j = k
      · subst hj
        rw [hmine]
        exact iff_of_false (fun h => h.1 rfl) fun ⟨v, hv⟩ => Option.some_ne_none v hv.symm
      · rw [hother hj]
        exact and_iff_right hj
    · rw [Finset.card_erase_of_mem hk, hp.count]
      rfl
    · -- What the operation had reserved is enough for what it has dirtied.
      have hdirtied : w.dirtied.card ≤ MAXOPBLOCKS := (Finset.card_le_card Finset.subset_union_left).trans hcard
      have hunion := Finset.card_union_le base w.dirtied
      have hroom := hp.room
      have hpos : 1 ≤ m.outstanding := hp.count ▸ Finset.card_pos.mpr ⟨k, hk⟩
      have hmul : m.outstanding * MAXOPBLOCKS = (m.outstanding - 1) * MAXOPBLOCKS + MAXOPBLOCKS := by
        rw [← Nat.succ_mul, Nat.succ_eq_add_one, Nat.sub_add_cancel hpos]
      change (base ∪ w.dirtied).card + (m.outstanding - 1) * MAXOPBLOCKS ≤ LOGSIZE
      omega
    · intro b hb
      rcases hp.logged hb with hb | ⟨j, v, hv, hbv⟩
      · exact .inl (Finset.mem_union_left _ hb)
      · by_cases hj : j = k
        · subst hj
          obtain rfl : w = v := Option.some.inj (hw.symm.trans hv)
          exact .inl (Finset.mem_union_right _ hbv)
        · exact .inr ⟨j, v, (hother hj).trans hv, hbv⟩
    · intro j v hv
      by_cases hj : j = k
      · subst hj
        exact absurd (hmine.symm.trans hv).symm (Option.some_ne_none v)
      · exact hp.operation ((hother hj).symm.trans hv)

theorem Machine.Supplied.committed (h : m.Supplied) (hw : m.worker k = some w) (hrest : w.rest = [])
    (hcommitting : w.committing = true) : (setWorker { m with committing := false } k none).Supplied := by
  cases h.phase with
  | working P base hp => exact absurd ((hp.operation hw).1.symm.trans hcommitting) Bool.false_ne_true
  | committing j v D hp =>
    obtain ⟨rfl, rfl⟩ := hp.eq_of_worker hw
    have hfits := hp.fits
    rw [hrest] at hfits
    obtain ⟨rfl, hheld⟩ := hfits
    have hnone : ∀ j, (setWorker { m with committing := false } k none).worker j = none := by
      intro j
      by_cases hj : j = k
      · exact hj ▸ Function.update_self _ _ _
      · exact (Function.update_of_ne hj _ _).trans (hp.alone hj)
    refine ⟨h.tracked.setWorker rfl rfl fun v hv => Option.some.inj (hw.symm.trans hv) ▸ hheld, ?_⟩
    refine .working ∅ m.lh.toFinset ⟨rfl, ?_, hp.drained.symm, ?_, Finset.Subset.refl _,
      fun hb => .inl (List.mem_toFinset.mpr hb), fun hb => absurd (hp.pinned hb) (Finset.notMem_empty _), hp.short, ?_⟩
    · intro j
      rw [hnone]
      exact iff_of_false (Finset.notMem_empty j) fun ⟨v, hv⟩ => Option.some_ne_none v hv.symm
    · change m.lh.toFinset.card + m.outstanding * MAXOPBLOCKS ≤ LOGSIZE
      rw [hp.drained, Nat.zero_mul]
      exact (List.toFinset_card_le m.lh).trans hp.short.le
    · intro j v hv
      exact absurd (hnone j ▸ hv).symm (Option.some_ne_none v)

theorem Machine.Supplied.step (h : m.Supplied) (hsb : sb.nlog ≤ LOGSIZE) {turn : Turn} (hwithin : Within m turn)
    (hstep : m.step sb turn = some n) : n.Supplied := by
  cases turn with
  | beginOp k p =>
    simp only [Machine.step, Option.ite_none_right_eq_some, Option.some.injEq] at hstep
    obtain ⟨⟨hnone, hops, hidle, hroom⟩, rfl⟩ := hstep
    exact h.beginOp hnone hops hidle hroom
  | run k =>
    simp only [Machine.step, Option.bind_eq_some_iff] at hstep
    obtain ⟨w, hw, hrun⟩ := hstep
    exact h.run hsb hw hwithin hrun
  | endOp k =>
    simp only [Machine.step, Option.bind_eq_some_iff, Option.ite_none_right_eq_some] at hstep
    obtain ⟨w, hw, ⟨-, hcommitting, hheld⟩, hend⟩ := hstep
    split at hend
    · next hlast => exact Option.some.inj hend ▸ h.endLast hw hcommitting hheld hlast
    · exact Option.some.inj hend ▸ h.endOther hw hcommitting hheld
  | committed k =>
    simp only [Machine.step, Option.bind_eq_some_iff, Option.ite_none_right_eq_some, Option.some.injEq] at hstep
    obtain ⟨w, hw, ⟨hrest, hcommitting⟩, rfl⟩ := hstep
    exact h.committed hw hrest hcommitting

theorem Machine.Supplied.init : Machine.init.Supplied where
  tracked := ⟨Inv.binit _ _, fun hx => absurd hx.symm (Option.some_ne_none _)⟩
  phase := by
    refine .working ∅ ∅ ⟨rfl, ?_, rfl, ?_, Finset.empty_subset _, fun hb => absurd hb List.not_mem_nil, ?_, ?_, ?_⟩
    · exact iff_of_false (Finset.notMem_empty _) fun ⟨w, hw⟩ => Option.some_ne_none w hw.symm
    · decide
    · rintro b ⟨i, -, hd⟩
      exact absurd hd Bool.false_ne_true
    · decide
    · exact fun hw => absurd hw.symm (Option.some_ne_none _)

end Steps

/-! ## Runs -/

/-- The states that the machine can reach if each turn is allowed. -/
inductive Machine.Run (sb : Superblock) (Ok : Machine → Turn → Prop) : Machine → Prop where
  | init : Run sb Ok Machine.init
  | step {m n : Machine} (h : Run sb Ok m) (turn : Turn) (hok : Ok m turn) (hstep : m.step sb turn = some n) :
      Run sb Ok n

theorem Machine.Run.supplied (hsb : sb.nlog ≤ LOGSIZE) (h : Run sb Within m) : m.Supplied := by
  induction h with
  | init => exact Supplied.init
  | step _ turn hok hstep ih => exact ih.step hsb hok hstep

/-- The blocks pinned or in use, with one that is asked for now, have room in the cache. -/
theorem Machine.Supplied.demand (h : m.Supplied) {b : Nat} {p : Program} (hw : m.worker k = some w)
    (hrest : w.rest = .io .bget b :: p) (hwithin : Within m (.run k)) :
    ∃ S : Finset Nat, (S.erase b).card < NBUF ∧ ∀ {c}, m.cache.Pinned c ∨ m.Held c → c ∈ S := by
  cases h.phase with
  | committing j v D hp =>
    obtain ⟨rfl, rfl⟩ := hp.eq_of_worker hw
    have hfits := hp.fits
    rw [hrest] at hfits
    refine ⟨D ∪ w.held, hfits.1, ?_⟩
    rintro c (hc | ⟨j, v, hv, hc⟩)
    · exact Finset.mem_union_left _ (hp.pinned hc)
    · exact Finset.mem_union_right _ ((hp.eq_of_worker hv).2 ▸ hc)
  | working P base hp =>
    have hlimit := hwithin w b p hw (hp.operation hw).1 hrest
    -- What each operation may have: `k` asks for one block more.
    let share : Nat → Finset Nat := fun j =>
      ((m.worker j).elim ∅ Worker.touched) ∪ if j = k then {b} else ∅
    have hshare : ∀ j ∈ P, (share j).card ≤ MAXOPBLOCKS := by
      intro j hj
      obtain ⟨v, hv⟩ := hp.workers.mp hj
      by_cases hjk : j = k
      · subst hjk
        obtain rfl : w = v := Option.some.inj (hw.symm.trans hv)
        have heq : share j = insert b w.touched := by
          simp only [share, hv, Option.elim_some, if_true]
          exact Finset.union_comm _ _
        exact heq ▸ hlimit
      · have heq : share j = v.touched := by
          simp only [share, hv, Option.elim_some, if_neg hjk, Finset.union_empty]
        exact heq ▸ (hp.operation hv).2.2.2
    have hk : k ∈ P := hp.workers.mpr ⟨w, hw⟩
    have hb : b ∈ base ∪ P.biUnion share := by
      refine Finset.mem_union_right _ (Finset.mem_biUnion.mpr ⟨k, hk, ?_⟩)
      simp [share]
    have hmem : ∀ {j v c}, m.worker j = some v → c ∈ v.touched → c ∈ base ∪ P.biUnion share := by
      intro j v c hv hc
      refine Finset.mem_union_right _ (Finset.mem_biUnion.mpr ⟨j, hp.workers.mpr ⟨v, hv⟩, ?_⟩)
      exact Finset.mem_union_left _ (by rwa [hv])
    refine ⟨base ∪ P.biUnion share, ?_, ?_⟩
    · rw [Finset.card_erase_of_mem hb]
      have hcard := Finset.card_biUnion_le_card_mul P share MAXOPBLOCKS hshare
      have hunion := Finset.card_union_le base (P.biUnion share)
      have hroom := hp.room
      rw [hp.count] at hcard
      have hpos : 0 < (base ∪ P.biUnion share).card := Finset.card_pos.mpr ⟨b, hb⟩
      have hle : (base ∪ P.biUnion share).card ≤ NBUF := hunion.trans ((Nat.add_le_add_left hcard _).trans hroom)
      exact (Nat.sub_lt hpos Nat.one_pos).trans_le hle
    · rintro c (hc | ⟨j, v, hv, hc⟩)
      · rcases hp.logged (hp.pinned hc) with hc | ⟨j, v, hv, hc⟩
        · exact Finset.mem_union_left _ hc
        · exact hmem hv (Finset.mem_union_left _ hc)
      · exact hmem hv (Finset.mem_union_right _ hc)

/-- While each operation asks for blocks within its limit, `bget` finds a buffer, and the
    blocks pinned or in use with the block asked for are not more than the buffers. -/
theorem cache_never_dry (h : Machine.Run mkfsSuperblock Within m) {b : Nat} {p : Program} (hw : m.worker k = some w)
    (hrest : w.rest = .io .bget b :: p) (hwithin : Within m (.run k)) :
    (m.cache.bget b).isSome ∧
    ∀ S : Finset Nat, (∀ c ∈ S, c = b ∨ m.cache.Pinned c ∨ m.Held c) → S.card ≤ NBUF := by
  have hsupplied := h.supplied (by decide)
  obtain ⟨T, hT, hmem⟩ := hsupplied.demand hw hrest hwithin
  refine ⟨hsupplied.tracked.cache.bget_isSome hT ?_, fun S hS => ?_⟩
  · rintro c (hc | ⟨u, x, hx, rfl⟩)
    · exact hmem (.inl hc)
    · exact hmem (.inr (hsupplied.tracked.held hx))
  · have hsub : S ⊆ insert b (T.erase b) := by
      intro c hc
      by_cases hcb : c = b
      · exact hcb ▸ Finset.mem_insert_self _ _
      · exact Finset.mem_insert_of_mem (Finset.mem_erase.mpr ⟨hcb, hmem ((hS c hc).resolve_left hcb)⟩)
    exact (Finset.card_le_card hsub).trans ((Finset.card_insert_le _ _).trans hT)

/-- One turn, if it meets `Ok`. -/
def Machine.next (sb : Superblock) (Ok : Machine → Turn → Prop) [∀ m turn, Decidable (Ok m turn)] (m : Machine)
    (turn : Turn) : Option Machine := if Ok m turn then m.step sb turn else none

theorem Machine.Run.of_foldlM {Ok : Machine → Turn → Prop} [∀ m turn, Decidable (Ok m turn)] {turns : List Turn}
    (h : Run sb Ok m) (hrun : turns.foldlM (Machine.next sb Ok) m = some n) : Run sb Ok n := by
  induction turns generalizing m with
  | nil => exact Option.some.inj hrun ▸ h
  | cons turn rest ih =>
    rw [List.foldlM_cons, Option.bind_eq_bind, Option.bind_eq_some_iff] at hrun
    obtain ⟨v, hv, hrun⟩ := hrun
    obtain ⟨hok, hv⟩ := Option.ite_none_right_eq_some.mp hv
    exact ih (.step h turn hok hv) hrun

/-- `write` of 1024 bytes to an empty file. The next free blocks begin at `first`. -/
def smallWrite (inum first : Nat) : Program :=
  ((writei mkfsSuperblock inum 0 0 1024).run ⟨fun _ => 0, fun _ _ => 0, [first, first + 1], []⟩).2.calls

/-- `close` of a file that was unlinked. It has `k` direct blocks and two below the
    triple indirect block. -/
def lastClose (k : Nat) : Program :=
  iputLast mkfsSuperblock 16 (fun n => if n < k then (n + 1) * BPB + 1000 else if n = NDIRECT + 2 then 5300 else 0)
    fun b n => match b, n with
      | 5300, 0 => 5301
      | 5301, 0 => 5302
      | 5302, 0 => 8 * BPB + 1000
      | 5302, 1 => 5001
      | _, _ => 0

/-- Two writes have logged their second block and hold it, and the third operation frees the
    second block below its triple indirect block. -/
def smallOperations : List Turn :=
  [.beginOp 0 (smallWrite 0 1100), .beginOp 1 (smallWrite 8 2100), .beginOp 2 (lastClose 1)] ++
    List.replicate 34 (.run 0) ++ List.replicate 34 (.run 1) ++ List.replicate 31 (.run 2)

/-- The third operation holds three tables when it asks for the superblock. -/
theorem cache_never_dry_smallOperations : ∃ m w p, Machine.Run mkfsSuperblock Within m ∧ m.worker 2 = some w ∧
    w.rest = .io .bget SBLOCK :: p ∧ {5300, 5301, 5302} ⊆ w.held ∧ m.Held 1101 ∧ m.Held 2101 ∧
    m.lh = [58, 1100, 1101, 2100, 2101, 59, 66] ∧ (m.cache.bget SBLOCK).isSome := by
  have hplay : (smallOperations.foldlM (Machine.next mkfsSuperblock Within) Machine.init).any (fun m =>
      m.lh = [58, 1100, 1101, 2100, 2101, 59, 66] ∧ (m.worker 0).any (fun w => 1101 ∈ w.held) ∧
      (m.worker 1).any (fun w => 2101 ∈ w.held) ∧ (m.worker 2).any (fun w => {5300, 5301, 5302} ⊆ w.held ∧
        w.rest.head? = some (.io .bget SBLOCK)) ∧ Within m (.run 2)) = true := by
    decide +kernel
  obtain ⟨m, hm, htest⟩ := (Option.any_eq_true _ _).mp hplay
  obtain ⟨hlog, hzero, hone, htwo, hwithin⟩ := of_decide_eq_true htest
  obtain ⟨w₀, hw₀, hheld₀⟩ := (Option.any_eq_true _ _).mp hzero
  obtain ⟨w₁, hw₁, hheld₁⟩ := (Option.any_eq_true _ _).mp hone
  obtain ⟨w, hw, htest⟩ := (Option.any_eq_true _ _).mp htwo
  obtain ⟨hheld, hhead⟩ := of_decide_eq_true htest
  obtain ⟨p, hp⟩ := List.head?_eq_some_iff.mp hhead
  have hrun : Machine.Run mkfsSuperblock Within m := .of_foldlM .init hm
  exact ⟨m, w, p, hrun, hw, hp, hheld, ⟨0, w₀, hw₀, of_decide_eq_true hheld₀⟩, ⟨1, w₁, hw₁, of_decide_eq_true hheld₁⟩,
    hlog, (cache_never_dry hrun hw hp hwithin).1⟩

/-! ## The cache runs dry -/

/-- The blocks that a program writes to the log. -/
def logged (p : Program) : Finset Nat :=
  (p.filterMap fun
    | .io .logWrite b => some b
    | _ => none).toFinset

/-- A file whose last block so far is the last but one below its doubly indirect table,
    the blocks of which are `leaf + 1` and `leaf`. The next free blocks begin at `first`. -/
def grownFile (leaf first : Nat) : Script where
  addrs := fun n => if n = NDIRECT + 1 then leaf + 1 else 0
  table := fun b n => if b = leaf + 1 ∧ n = NINDIRECT - 1 then leaf else 0
  free := (List.range 7).map (first + ·)
  calls := []

/-- `pwrite` of 1536 bytes, 100 bytes behind the end of such a file. It takes four blocks
    and the three tables of the triple indirect block. -/
def bigWrite (inum leaf first : Nat) : Program :=
  let size := (NDIRECT + NINDIRECT + NDOUBINDIRECT - 1) * BSIZE
  ((writei mkfsSuperblock inum size (size + 100) 1536).run (grownFile leaf first)).2.calls

/-- Two writes have done all but `end_op` when the third operation frees the second block
    below its triple indirect block. -/
def threeOperations : List Turn :=
  [.beginOp 0 (bigWrite 0 1000 1100), .beginOp 1 (bigWrite 8 2000 2100), .beginOp 2 (lastClose 7)] ++
    List.replicate 175 (.run 0) ++ List.replicate 175 (.run 1) ++ List.replicate 97 (.run 2)

/-- Each of the three operations dirties ten blocks at most and the log has room for them
    all, but there is no buffer to read the superblock in `bfree`. -/
theorem cache_runs_dry :
    (logged (bigWrite 0 1000 1100)).card ≤ MAXOPBLOCKS ∧ (logged (bigWrite 8 2000 2100)).card ≤ MAXOPBLOCKS ∧
    (logged (lastClose 7)).card ≤ MAXOPBLOCKS ∧
    (logged (bigWrite 0 1000 1100 ++ bigWrite 8 2000 2100 ++ lastClose 7)).card < mkfsSuperblock.nlog - 1 ∧
    ∃ m w p, Machine.Run mkfsSuperblock (fun _ _ => True) m ∧ m.worker 2 = some w ∧
      w.rest = .io .bget SBLOCK :: p ∧ m.cache.bget SBLOCK = none := by
  have hplay : (threeOperations.foldlM (Machine.next mkfsSuperblock fun _ _ => True) Machine.init).any (fun m =>
      (m.worker 2).any (fun w => w.rest.head? = some (.io .bget SBLOCK)) ∧ (m.cache.bget SBLOCK).isNone) = true := by
    decide +kernel
  refine ⟨by decide +kernel, by decide +kernel, by decide +kernel, by decide +kernel, ?_⟩
  obtain ⟨m, hm, hdry⟩ := (Option.any_eq_true _ _).mp hplay
  obtain ⟨hworker, hnone⟩ := of_decide_eq_true hdry
  obtain ⟨w, hw, hhead⟩ := (Option.any_eq_true _ _).mp hworker
  obtain ⟨p, hp⟩ := List.head?_eq_some_iff.mp (of_decide_eq_true hhead)
  exact ⟨m, w, p, .of_foldlM .init hm, hw, hp, Option.isNone_iff_eq_none.mp hnone⟩

end Xv6.Bio
