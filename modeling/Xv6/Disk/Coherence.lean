-- SUMMARY: One buffer for a block, a list through all buffers, and what bread returns.
import Mathlib.Data.Finset.Card
import Xv6.Disk.Bio

/-! # Coherence of the buffer cache

A use whose buffer is locked does to that buffer what it likes, as long as `Inv` holds
of the buffer afterwards (`Inv.turn`). The other steps are those of `bget` and of the
end of `brelse`, which change who uses a buffer.
-/

namespace Xv6.Bio

variable {Data : Type} {s t : State Data} {u : Nat} {x : Use} {b : Nat} {i j : Slot}

/-! ## Steps -/

namespace State

@[simp] theorem setUse_buf {y : Option Use} : (s.setUse u y).buf = s.buf := rfl
@[simp] theorem setUse_links {y : Option Use} : (s.setUse u y).links = s.links := rfl
@[simp] theorem setUse_disk {y : Option Use} : (s.setUse u y).disk = s.disk := rfl
@[simp] theorem setUse_last {y : Option Use} : (s.setUse u y).last = s.last := rfl

@[simp] theorem updBuf_same {f : Buf Data → Buf Data} : (s.updBuf i f).buf i = f (s.buf i) := Function.update_self _ _ _

theorem updBuf_of_ne {f : Buf Data → Buf Data} (h : j ≠ i) : (s.updBuf i f).buf j = s.buf j :=
  Function.update_of_ne h _ _

theorem of_turn {points : List Point} {f : Slot → State Data} {next : Option Point}
    (h : s.turn u points f next = some t) : ∃ x, s.use u = some x ∧ x.point ∈ points ∧
      t = (f x.slot).setUse u (next.map fun p => { x with point := p }) := by
  unfold turn at h
  cases hx : s.use u with
  | none => simp [hx] at h
  | some x =>
    rw [hx] at h
    simp only [Option.ite_none_right_eq_some, Option.some.injEq] at h
    exact ⟨x, rfl, h.1, h.2.symm⟩

theorem caches_iff : s.caches b i = true ↔ (s.buf i).dev = ROOTDEV ∧ (s.buf i).blockno = b := decide_eq_true_iff

theorem unused_iff : s.unused i = true ↔ (s.buf i).refcnt = 0 ∧ (s.buf i).dirty = false := decide_eq_true_iff

end State

/-! ## The invariant -/

/-- The use has locked its buffer. -/
def Point.Locks : Point → Prop
  | .locking | .releasing => False
  | .reading | .holding | .stored | .writing => True

/-- `bread` has returned. -/
def Point.Ready : Point → Prop
  | .locking | .reading | .releasing => False
  | .holding | .stored | .writing => True

theorem Point.Ready.locks : ∀ {p : Point}, p.Ready → p.Locks
  | .holding, _ | .stored, _ | .writing, _ => trivial

/-- `refcnt` counts the uses of the buffer. -/
def State.Counted (s : State Data) (i : Slot) : Prop :=
  ∃ U : Finset Nat, (∀ u, u ∈ U ↔ ∃ x, s.use u = some x ∧ x.slot = i) ∧ U.card = (s.buf i).refcnt

structure Inv (s : State Data) : Prop where
  cycle : ∃ l, s.links.Cycle l ∧ ∀ i, i ∈ l
  unique : ∀ {b i j}, s.caches b i = true → s.caches b j = true → i = j
  counted : ∀ i, s.Counted i
  uses : ∀ {u x}, s.use u = some x → s.caches x.block x.slot = true
  locked : ∀ {i u}, (s.buf i).lock = some u ↔ ∃ x, s.use u = some x ∧ x.slot = i ∧ x.point.Locks
  ready : ∀ {u x}, s.use u = some x → x.point.Ready → (s.buf x.slot).valid = true
  writing : ∀ {u x}, s.use u = some x → x.point = .writing → (s.buf x.slot).dirty = true
  dirty : ∀ {i}, (s.buf i).dirty = true → (s.buf i).valid = true ∧ (s.buf i).dev = ROOTDEV
  data : ∀ {b i}, s.caches b i = true → (s.buf i).valid = true → (s.buf i).data = s.last b ∨
    ∃ u x, s.use u = some x ∧ x.slot = i ∧ x.point = .stored
  settled : ∀ b, s.disk b = s.last b ∨ ∃ i, s.caches b i = true ∧ (s.buf i).dirty = true

namespace Inv

/-- Two uses of one block use one buffer. -/
theorem slot_eq (h : Inv s) (hx : s.use u = some x) (hi : s.caches x.block i = true) : i = x.slot :=
  h.unique hi (h.uses hx)

/-- The disk has what was last stored, or the buffer has. -/
theorem disk_or_dirty (h : Inv s) (hx : s.use u = some x) :
    s.disk x.block = s.last x.block ∨ (s.buf x.slot).dirty = true := by
  refine (h.settled x.block).imp_right ?_
  rintro ⟨i, hi, hdirty⟩
  exact h.slot_eq hx hi ▸ hdirty

theorem blockno_eq (h : Inv s) (hx : s.use u = some x) : (s.buf x.slot).blockno = x.block :=
  (State.caches_iff.mp (h.uses hx)).2

/-- Nobody but `u` has locked the buffer of `u`. -/
theorem not_locks {v : Nat} {y : Use} (h : Inv s)
    (hlock : (s.buf i).lock = none ∨ (s.buf i).lock = some u) (hy : s.use v = some y) (hv : v ≠ u)
    (hi : y.slot = i) : ¬ y.point.Locks := by
  intro hp
  have hl : (s.buf i).lock = some v := h.locked.mpr ⟨y, hy, hi, hp⟩
  rw [hl] at hlock
  rcases hlock with hlock | hlock
  · exact Option.some_ne_none v hlock
  · exact hv (Option.some.inj hlock)

/-- A buffer that nobody else has locked is as it was last stored, unless `u` changes it. -/
theorem data_of_lock (h : Inv s) (hx : s.use u = some x)
    (hlock : (s.buf x.slot).lock = none ∨ (s.buf x.slot).lock = some u) (hpoint : x.point ≠ .stored)
    (hvalid : (s.buf x.slot).valid = true) : (s.buf x.slot).data = s.last x.block := by
  refine (h.data (h.uses hx) hvalid).resolve_right ?_
  rintro ⟨v, y, hy, hslot, hstored⟩
  by_cases hv : v = u
  · rw [hv, hx] at hy
    exact hpoint (Option.some.inj hy ▸ hstored)
  · exact h.not_locks hlock hy hv hslot (hstored ▸ trivial)

theorem lock_of_locks (h : Inv s) (hx : s.use u = some x) (hp : x.point.Locks) : (s.buf x.slot).lock = some u :=
  h.locked.mpr ⟨x, hx, rfl, hp⟩

end Inv

/-! ## Steps of a use -/

/-- The use `u` goes on to `p` and changes nothing but its buffer and its block. -/
structure Turned (s : State Data) (u : Nat) (x : Use) (p : Point) (t : State Data) : Prop where
  was : s.use u = some x
  use : t.use = Function.update s.use u (some { x with point := p })
  links : t.links = s.links
  others : ∀ i, i ≠ x.slot → t.buf i = s.buf i
  dev : (t.buf x.slot).dev = (s.buf x.slot).dev
  blockno : (t.buf x.slot).blockno = (s.buf x.slot).blockno
  refcnt : (t.buf x.slot).refcnt = (s.buf x.slot).refcnt
  disk : ∀ b, b ≠ x.block → t.disk b = s.disk b
  last : ∀ b, b ≠ x.block → t.last b = s.last b

namespace Turned

variable {p : Point}

theorem use_same (h : Turned s u x p t) : t.use u = some { x with point := p } := by
  rw [h.use, Function.update_self]

theorem use_of_ne (h : Turned s u x p t) {v : Nat} (hv : v ≠ u) : t.use v = s.use v := by
  rw [h.use, Function.update_of_ne hv]

theorem caches (h : Turned s u x p t) : t.caches b i = s.caches b i := by
  by_cases hi : i = x.slot
  · rw [State.caches, State.caches, hi, h.dev, h.blockno]
  · rw [State.caches, State.caches, h.others i hi]

/-- Who uses which buffer stays. -/
theorem uses_iff (h : Turned s u x p t) {v : Nat} :
    (∃ y, t.use v = some y ∧ y.slot = i) ↔ ∃ y, s.use v = some y ∧ y.slot = i := by
  by_cases hv : v = u
  · subst hv
    rw [h.use_same, h.was]
    simp
  · rw [h.use_of_ne hv]

theorem counted (h : Turned s u x p t) (hs : s.Counted i) : t.Counted i := by
  obtain ⟨U, hU, hcard⟩ := hs
  refine ⟨U, fun v => (hU v).trans h.uses_iff.symm, hcard.trans ?_⟩
  by_cases hi : i = x.slot
  · rw [hi, h.refcnt]
  · rw [h.others i hi]

end Turned

/-- The use `u` goes on to `p`, and its buffer is in order. -/
theorem Inv.turn {p : Point} (h : Inv s) (ht : Turned s u x p t)
    (hlock : (s.buf x.slot).lock = none ∨ (s.buf x.slot).lock = some u)
    (hlocked : (t.buf x.slot).lock = some u ∧ p.Locks ∨ (t.buf x.slot).lock = none ∧ ¬ p.Locks)
    (hready : p.Ready → (t.buf x.slot).valid = true) (hwriting : p = .writing → (t.buf x.slot).dirty = true)
    (hdirty : (t.buf x.slot).dirty = true → (t.buf x.slot).valid = true)
    (hdata : (t.buf x.slot).valid = true → (t.buf x.slot).data = t.last x.block ∨ p = .stored)
    (hsettled : t.disk x.block = t.last x.block ∨ (t.buf x.slot).dirty = true) : Inv t where
  cycle := ht.links ▸ h.cycle
  unique := by
    intro b i j
    rw [ht.caches, ht.caches]
    exact h.unique
  counted := fun i => ht.counted (h.counted i)
  uses := by
    intro v y hy
    rw [ht.caches]
    by_cases hv : v = u
    · rw [hv, ht.use_same] at hy
      obtain rfl := Option.some.inj hy
      have huses := h.uses ht.was
      exact huses
    · exact h.uses ((ht.use_of_ne hv).symm.trans hy)
  locked := by
    intro i v
    by_cases hi : i = x.slot
    · subst hi
      by_cases hv : v = u
      · subst hv
        rw [ht.use_same]
        rcases hlocked with ⟨ha, hp⟩ | ⟨ha, hp⟩ <;> simp [ha, hp]
      · -- Nobody else has locked the buffer, before or after.
        rw [ht.use_of_ne hv, ← h.locked]
        have hbefore : (s.buf x.slot).lock ≠ some v := by
          rcases hlock with ha | ha <;> rw [ha] <;> simp [Ne.symm hv]
        have hafter : (t.buf x.slot).lock ≠ some v := by
          rcases hlocked with ⟨ha, -⟩ | ⟨ha, -⟩ <;> rw [ha] <;> simp [Ne.symm hv]
        exact iff_of_false hafter hbefore
    · rw [ht.others i hi, h.locked]
      by_cases hv : v = u
      · subst hv
        rw [ht.use_same, ht.was]
        simp [Ne.symm hi]
      · rw [ht.use_of_ne hv]
  ready := by
    intro v y hy hp
    by_cases hv : v = u
    · rw [hv, ht.use_same] at hy
      obtain rfl := Option.some.inj hy
      exact hready hp
    · rw [ht.use_of_ne hv] at hy
      by_cases hi : y.slot = x.slot
      · exact absurd hp.locks (h.not_locks hlock hy hv hi)
      · rw [ht.others _ hi]
        exact h.ready hy hp
  writing := by
    intro v y hy hp
    by_cases hv : v = u
    · rw [hv, ht.use_same] at hy
      obtain rfl := Option.some.inj hy
      exact hwriting hp
    · rw [ht.use_of_ne hv] at hy
      by_cases hi : y.slot = x.slot
      · exact absurd (hp ▸ trivial) (h.not_locks hlock hy hv hi)
      · rw [ht.others _ hi]
        exact h.writing hy hp
  dirty := by
    intro i hd
    by_cases hi : i = x.slot
    · subst hi
      exact ⟨hdirty hd, ht.dev.trans (State.caches_iff.mp (h.uses ht.was)).1⟩
    · rw [ht.others i hi] at hd ⊢
      exact h.dirty hd
  data := by
    intro b i hb hv
    rw [ht.caches] at hb
    by_cases hi : i = x.slot
    · subst hi
      obtain rfl : x.block = b := (State.caches_iff.mp (h.uses ht.was)).2.symm.trans (State.caches_iff.mp hb).2
      exact (hdata hv).imp_right fun hp => ⟨u, _, ht.use_same, rfl, hp⟩
    · rw [ht.others i hi] at hv ⊢
      have hne : b ≠ x.block := by
        rintro rfl
        exact hi (h.slot_eq ht.was hb)
      rw [ht.last b hne]
      refine (h.data hb hv).imp_right ?_
      rintro ⟨v, y, hy, rfl, hp⟩
      refine ⟨v, y, ?_, rfl, hp⟩
      rwa [ht.use_of_ne]
      rintro rfl
      rw [ht.was] at hy
      exact hi (Option.some.inj hy ▸ rfl)
  settled := by
    intro b
    by_cases hb : b = x.block
    · subst hb
      refine hsettled.imp_right fun hd => ⟨x.slot, ?_, hd⟩
      rw [ht.caches]
      exact h.uses ht.was
    · rw [ht.disk b hb, ht.last b hb]
      refine (h.settled b).imp_right ?_
      rintro ⟨i, hi, hd⟩
      refine ⟨i, ht.caches.trans hi, ?_⟩
      rwa [ht.others]
      rintro rfl
      exact hb ((State.caches_iff.mp hi).2.symm.trans (State.caches_iff.mp (h.uses ht.was)).2)

/-! ## Uses begin and end -/

theorem Inv.not_used (h : Inv s) (hunused : s.unused i = true) (hx : s.use u = some x) : x.slot ≠ i := by
  intro hi
  obtain ⟨U, hU, hcard⟩ := h.counted i
  rw [(State.unused_iff.mp hunused).1, Finset.card_eq_zero] at hcard
  exact Finset.notMem_empty u (hcard ▸ (hU u).mpr ⟨x, hx, hi⟩)

/-- A buffer that is not used and not dirty is given to another block. -/
theorem Inv.recycle (h : Inv s) (hunused : s.unused i = true) (hmiss : ∀ j, s.caches b j = false) :
    Inv (s.updBuf i fun y => { y with dev := ROOTDEV, blockno := b, valid := false, dirty := false }) := by
  have hclean := (State.unused_iff.mp hunused).2
  have hno : ∀ {u x}, s.use u = some x → x.slot ≠ i := fun hx => h.not_used hunused hx
  generalize ht : s.updBuf i (fun y => { y with dev := ROOTDEV, blockno := b, valid := false, dirty := false }) = t
  have huse : t.use = s.use := ht ▸ rfl
  have hsame : t.buf i = { s.buf i with dev := ROOTDEV, blockno := b, valid := false, dirty := false } :=
    ht ▸ State.updBuf_same
  have hother : ∀ {j}, j ≠ i → t.buf j = s.buf j := fun hj => ht ▸ State.updBuf_of_ne hj
  have hcaches : ∀ {c j}, j ≠ i → t.caches c j = s.caches c j := by
    intro c j hj
    rw [State.caches, State.caches, hother hj]
  have hslot : ∀ {c}, t.caches c i = true → c = b := by
    intro c hc
    have hc := (State.caches_iff.mp hc).2
    rw [hsame] at hc
    exact hc.symm
  constructor
  case cycle => exact ht ▸ h.cycle
  case unique =>
    intro c j k hj hk
    by_cases hji : j = i <;> by_cases hki : k = i
    · exact hji.trans hki.symm
    · have hc : c = b := hslot (hji ▸ hj)
      rw [hcaches hki, hc, hmiss] at hk
      exact absurd hk Bool.false_ne_true
    · have hc : c = b := hslot (hki ▸ hk)
      rw [hcaches hji, hc, hmiss] at hj
      exact absurd hj Bool.false_ne_true
    · rw [hcaches hji] at hj
      rw [hcaches hki] at hk
      exact h.unique hj hk
  case counted =>
    intro j
    obtain ⟨U, hU, hcard⟩ := h.counted j
    refine ⟨U, huse ▸ hU, hcard.trans ?_⟩
    by_cases hj : j = i
    · rw [hj, hsame]
    · rw [hother hj]
  case uses =>
    intro u x hx
    rw [huse] at hx
    rw [hcaches (hno hx)]
    exact h.uses hx
  case locked =>
    intro j u
    rw [huse, ← h.locked]
    by_cases hj : j = i
    · rw [hj, hsame]
    · rw [hother hj]
  case ready =>
    intro u x hx hp
    rw [huse] at hx
    rw [hother (hno hx)]
    exact h.ready hx hp
  case writing =>
    intro u x hx hp
    rw [huse] at hx
    rw [hother (hno hx)]
    exact h.writing hx hp
  case dirty =>
    intro j hd
    by_cases hj : j = i
    · rw [hj, hsame] at hd
      exact absurd hd Bool.false_ne_true
    · rw [hother hj] at hd ⊢
      exact h.dirty hd
  case data =>
    intro c j hc hv
    by_cases hj : j = i
    · rw [hj, hsame] at hv
      exact absurd hv Bool.false_ne_true
    · rw [hcaches hj] at hc
      rw [hother hj] at hv ⊢
      rw [huse, show t.last = s.last from ht ▸ rfl]
      exact h.data hc hv
  case settled =>
    intro c
    rw [show t.disk = s.disk from ht ▸ rfl, show t.last = s.last from ht ▸ rfl]
    refine (h.settled c).imp_right ?_
    rintro ⟨j, hj, hd⟩
    have hji : j ≠ i := by
      rintro rfl
      rw [hclean] at hd
      exact Bool.false_ne_true hd
    exact ⟨j, (hcaches hji).trans hj, by rwa [hother hji]⟩

/-- A use that has not locked a buffer begins or ends. -/
structure Recounted (s : State Data) (u : Nat) (y : Option Use) (i : Slot) (n : Nat) (t : State Data) : Prop where
  use : t.use = Function.update s.use u y
  others : ∀ j, j ≠ i → t.buf j = s.buf j
  same : t.buf i = { s.buf i with refcnt := n }
  disk : t.disk = s.disk
  last : t.last = s.last

theorem Inv.recount {y : Option Use} {n : Nat} (h : Inv s) (ht : Recounted s u y i n t)
    (hwas : ∀ x, s.use u = some x → ¬ x.point.Locks) (hnow : ∀ x, y = some x → ¬ x.point.Locks)
    (huses : ∀ x, y = some x → s.caches x.block x.slot = true)
    (hcycle : ∃ l, t.links.Cycle l ∧ ∀ i, i ∈ l) (hcounted : ∀ j, t.Counted j) : Inv t := by
  have hfields : ∀ j, (t.buf j).valid = (s.buf j).valid ∧ (t.buf j).dirty = (s.buf j).dirty ∧
      (t.buf j).dev = (s.buf j).dev ∧ (t.buf j).blockno = (s.buf j).blockno ∧
      (t.buf j).lock = (s.buf j).lock ∧ (t.buf j).data = (s.buf j).data := by
    intro j
    by_cases hj : j = i
    · rw [hj, ht.same]
      exact ⟨rfl, rfl, rfl, rfl, rfl, rfl⟩
    · rw [ht.others j hj]
      exact ⟨rfl, rfl, rfl, rfl, rfl, rfl⟩
  have hcaches : ∀ c j, t.caches c j = s.caches c j := by
    intro c j
    obtain ⟨-, -, hdev, hblock, -, -⟩ := hfields j
    rw [State.caches, State.caches, hdev, hblock]
  have hlocks : ∀ v x, x.point.Locks → (t.use v = some x ↔ s.use v = some x) := by
    intro v x hp
    rw [ht.use]
    by_cases hv : v = u
    · rw [hv, Function.update_self]
      exact iff_of_false (fun hy => hnow x hy hp) fun hx => hwas x hx hp
    · rw [Function.update_of_ne hv]
  refine ⟨hcycle, ?_, hcounted, ?_, ?_, ?_, ?_, ?_, ?_, ?_⟩
  · intro b j k
    rw [hcaches, hcaches]
    exact h.unique
  · intro v x hx
    rw [hcaches]
    rw [ht.use] at hx
    by_cases hv : v = u
    · rw [hv, Function.update_self] at hx
      exact huses x hx
    · rw [Function.update_of_ne hv] at hx
      exact h.uses hx
  · intro j v
    rw [(hfields j).2.2.2.2.1, h.locked]
    exact exists_congr fun x => ⟨fun ⟨hx, hj, hp⟩ => ⟨(hlocks v x hp).mpr hx, hj, hp⟩,
      fun ⟨hx, hj, hp⟩ => ⟨(hlocks v x hp).mp hx, hj, hp⟩⟩
  · intro v x hx hp
    rw [(hfields _).1]
    exact h.ready ((hlocks v x hp.locks).mp hx) hp
  · intro v x hx hp
    rw [(hfields _).2.1]
    exact h.writing ((hlocks v x (hp ▸ trivial)).mp hx) hp
  · intro j hd
    obtain ⟨hvalid, hdirty, hdev, -, -, -⟩ := hfields j
    rw [hvalid, hdev]
    exact h.dirty (hdirty ▸ hd)
  · intro b j hb hv
    obtain ⟨hvalid, -, -, -, -, hdata⟩ := hfields j
    rw [hdata, ht.last]
    refine (h.data (hcaches b j ▸ hb) (hvalid ▸ hv)).imp_right ?_
    rintro ⟨v, x, hx, hj, hp⟩
    exact ⟨v, x, (hlocks v x (hp ▸ trivial)).mpr hx, hj, hp⟩
  · intro b
    rw [ht.disk, ht.last]
    refine (h.settled b).imp_right ?_
    rintro ⟨j, hj, hd⟩
    exact ⟨j, (hcaches b j).trans hj, (hfields j).2.1.trans hd⟩

/-- `bget` finds the block, or recycles a buffer that is not used. -/
theorem Inv.bget_cases (h : Inv s) (hget : s.bget b = some (t, i)) :
    (s.caches b i = true ∧ t = s.updBuf i fun y => { y with refcnt := y.refcnt + 1 }) ∨
    ((∀ j, s.caches b j = false) ∧ s.unused i = true ∧ t = s.updBuf i fun y =>
      { y with dev := ROOTDEV, blockno := b, valid := false, dirty := false, refcnt := 1 }) := by
  obtain ⟨l, hl, hall⟩ := h.cycle
  have hlen : l.length < NBUF + 1 := Nat.lt_succ_of_le (hl.nodup.length_le_card.trans (Fintype.card_fin NBUF).le)
  rw [State.bget, hl.walk_next hlen, hl.walk_prev hlen] at hget
  cases hfind : l.find? (s.caches b) with
  | some k =>
    rw [hfind] at hget
    obtain ⟨rfl, rfl⟩ := Prod.mk.inj (Option.some.inj hget)
    exact .inl ⟨List.find?_some hfind, rfl⟩
  | none =>
    rw [hfind] at hget
    have hmiss : ∀ j, s.caches b j = false := fun j =>
      Bool.eq_false_iff.mpr (List.find?_eq_none.mp hfind j (hall j))
    cases hlast : l.reverse.find? s.unused with
    | some k =>
      rw [hlast] at hget
      obtain ⟨rfl, rfl⟩ := Prod.mk.inj (Option.some.inj hget)
      exact .inr ⟨hmiss, List.find?_some hlast, rfl⟩
    | none =>
      rw [hlast] at hget
      exact absurd hget.symm (Option.some_ne_none _)

/-- A use of a cached block begins. -/
theorem Inv.begin_use (h : Inv s) (hidle : s.use u = none) (hi : s.caches b i = true) :
    Inv ((s.updBuf i fun y => { y with refcnt := y.refcnt + 1 }).setUse u (some ⟨b, i, .locking⟩)) := by
  have ht : Recounted s u (some ⟨b, i, .locking⟩) i ((s.buf i).refcnt + 1)
      ((s.updBuf i fun y => { y with refcnt := y.refcnt + 1 }).setUse u (some ⟨b, i, .locking⟩)) :=
    ⟨rfl, fun j hj => Function.update_of_ne hj _ _, Function.update_self _ _ _, rfl, rfl⟩
  refine h.recount ht ?_ ?_ ?_ h.cycle fun j => ?_
  · intro x hx
    rw [hidle] at hx
    exact absurd hx.symm (Option.some_ne_none x)
  · rintro x hx
    obtain rfl := Option.some.inj hx
    exact fun hp => hp
  · rintro x hx
    obtain rfl := Option.some.inj hx
    exact hi
  · obtain ⟨U, hU, hcard⟩ := h.counted j
    have hnot : u ∉ U := by
      rw [hU, hidle]
      simp
    by_cases hj : j = i
    · subst hj
      refine ⟨insert u U, fun v => ?_, ?_⟩
      · rw [ht.use, Finset.mem_insert, hU]
        by_cases hv : v = u
        · simp [hv]
        · simp [hv]
      · rw [Finset.card_insert_of_notMem hnot, hcard, ht.same]
    · refine ⟨U, fun v => ?_, by rw [hcard, ht.others j hj]⟩
      rw [hU, ht.use]
      by_cases hv : v = u
      · simp [hv, hidle, Ne.symm hj]
      · simp [hv]

theorem Inv.bread (h : Inv s) (hidle : s.use u = none) (hget : s.bget b = some (t, i)) :
    Inv (t.setUse u (some ⟨b, i, .locking⟩)) := by
  rcases h.bget_cases hget with ⟨hi, rfl⟩ | ⟨hmiss, hunused, rfl⟩
  · exact h.begin_use hidle hi
  · -- First the buffer gets the block, then it is found.
    have hnew : State.caches (s.updBuf i fun y =>
        { y with dev := ROOTDEV, blockno := b, valid := false, dirty := false }) b i = true := by
      rw [State.caches_iff, State.updBuf_same]
      exact ⟨rfl, rfl⟩
    have hbegin := (h.recycle hunused hmiss).begin_use hidle hnew
    have hrefcnt := (State.unused_iff.mp hunused).1
    simpa only [State.updBuf, Function.update_self, Function.update_idem, hrefcnt] using hbegin

/-- `brelse` returns. -/
theorem Inv.unref (h : Inv s) (hx : s.use u = some x) (hpoint : x.point = .releasing) :
    Inv ((s.unref x.slot).setUse u none) := by
  obtain ⟨U, hU, hcard⟩ := h.counted x.slot
  have hmem : u ∈ U := (hU u).mpr ⟨x, hx, rfl⟩
  have ht : Recounted s u none x.slot ((s.buf x.slot).refcnt - 1) ((s.unref x.slot).setUse u none) := by
    unfold State.unref
    split <;> exact ⟨rfl, fun j hj => Function.update_of_ne hj _ _, Function.update_self _ _ _, rfl, rfl⟩
  refine h.recount ht ?_ (fun y hy => absurd hy.symm (Option.some_ne_none y))
    (fun y hy => absurd hy.symm (Option.some_ne_none y)) ?_ fun j => ?_
  · intro y hy
    rw [hx] at hy
    rw [← Option.some.inj hy, hpoint]
    exact fun hp => hp
  · obtain ⟨l, hl, hall⟩ := h.cycle
    unfold State.unref
    split
    · refine ⟨x.slot :: l.erase x.slot, (hl.unlink (hall _)).pushFront hl.nodup.not_mem_erase, fun j => ?_⟩
      by_cases hj : j = x.slot
      · exact hj ▸ List.mem_cons_self
      · exact List.mem_cons_of_mem _ ((List.mem_erase_of_ne hj).mpr (hall j))
    · exact ⟨l, hl, hall⟩
  · by_cases hj : j = x.slot
    · subst hj
      refine ⟨U.erase u, fun v => ?_, ?_⟩
      · rw [ht.use, Finset.mem_erase, hU]
        by_cases hv : v = u
        · simp [hv]
        · simp [hv]
      · rw [Finset.card_erase_of_mem hmem, hcard, ht.same]
    · obtain ⟨V, hV, hVcard⟩ := h.counted j
      refine ⟨V, fun v => ?_, by rw [hVcard, ht.others j hj]⟩
      rw [hV, ht.use]
      by_cases hv : v = u
      · simp [hv, hx, Ne.symm hj]
      · simp [hv]

/-! ## Every step -/

/-- `u` changes its buffer, and perhaps what is on disk or was last stored in its block. -/
theorem Inv.turned {p : Point} (f : Buf Data → Buf Data) (h : Inv s) (hx : s.use u = some x)
    (hbuf : t.buf = Function.update s.buf x.slot (f (s.buf x.slot))) (hlinks : t.links = s.links)
    (huse : t.use = s.use) (hdisk : ∀ c, c ≠ (s.buf x.slot).blockno → t.disk c = s.disk c)
    (hlast : ∀ c, c ≠ (s.buf x.slot).blockno → t.last c = s.last c)
    (hf : (f (s.buf x.slot)).dev = (s.buf x.slot).dev ∧ (f (s.buf x.slot)).blockno = (s.buf x.slot).blockno ∧
      (f (s.buf x.slot)).refcnt = (s.buf x.slot).refcnt) :
    Turned s u x p (t.setUse u (some { x with point := p })) := by
  have hsame : t.buf x.slot = f (s.buf x.slot) := by rw [hbuf, Function.update_self]
  have hblock := h.blockno_eq hx
  refine ⟨hx, ?_, hlinks, ?_, ?_, ?_, ?_, ?_, ?_⟩
  · rw [State.setUse, huse]
  · intro j hj
    rw [State.setUse_buf, hbuf, Function.update_of_ne hj]
  · rw [State.setUse_buf, hsame, hf.1]
  · rw [State.setUse_buf, hsame, hf.2.1]
  · rw [State.setUse_buf, hsame, hf.2.2]
  · exact fun c hc => hdisk c (hblock ▸ hc)
  · exact fun c hc => hlast c (hblock ▸ hc)

section Steps

variable (h : Inv s) (hx : s.use u = some x)
include h hx

theorem Inv.lock (hlock : (s.buf x.slot).lock = none) (hpoint : x.point = .locking) :
    Inv ((s.updBuf x.slot fun y => { y with lock := some u }).setUse u (some { x with point := .reading })) := by
  refine h.turn (h.turned (fun y => { y with lock := some u }) hx rfl rfl rfl (fun _ _ => rfl) (fun _ _ => rfl)
    ⟨rfl, rfl, rfl⟩) (.inl hlock) ?_ ?_ ?_ ?_ ?_ ?_
  all_goals rw [State.setUse_buf, State.updBuf_same]
  · exact .inl ⟨rfl, trivial⟩
  · exact fun hp => hp.elim
  · exact fun hp => Point.noConfusion hp
  · exact fun hd => (h.dirty hd).1
  · exact fun hv => .inl (h.data_of_lock hx (.inl hlock) (hpoint ▸ Point.noConfusion) hv)
  · exact h.disk_or_dirty hx

theorem Inv.read (hpoint : x.point = .reading) :
    Inv ((if (s.buf x.slot).valid then s else s.iderw x.slot).setUse u (some { x with point := .holding })) := by
  have hlock : (s.buf x.slot).lock = some u := h.lock_of_locks hx (hpoint ▸ trivial)
  by_cases hvalid : (s.buf x.slot).valid = true
  · rw [if_pos hvalid]
    refine h.turn (h.turned id hx (Function.update_eq_self _ _).symm rfl rfl (fun _ _ => rfl) (fun _ _ => rfl)
      ⟨rfl, rfl, rfl⟩) (.inr hlock) (.inl ⟨hlock, trivial⟩) (fun _ => hvalid) (fun hp => Point.noConfusion hp)
      (fun _ => hvalid) (fun hv => .inl ?_) (h.disk_or_dirty hx)
    exact h.data_of_lock hx (.inr hlock) (hpoint ▸ Point.noConfusion) hv
  · -- A buffer that is not valid is not dirty, so that the disk has the data.
    have hclean : (s.buf x.slot).dirty = false := Bool.eq_false_iff.mpr fun hd => hvalid (h.dirty hd).1
    have hdisk : s.disk x.block = s.last x.block :=
      (h.disk_or_dirty hx).resolve_right (Bool.eq_false_iff.mp hclean)
    rw [if_neg hvalid, State.iderw, if_neg (Bool.eq_false_iff.mp hclean)]
    refine h.turn (h.turned (fun y => { y with data := s.disk y.blockno, valid := true, dirty := false }) hx rfl rfl rfl
      (fun _ _ => rfl) (fun _ _ => rfl) ⟨rfl, rfl, rfl⟩) (.inr hlock) ?_ ?_ ?_ ?_ ?_ (.inl hdisk)
    all_goals rw [State.setUse_buf, State.updBuf_same]
    · exact .inl ⟨hlock, trivial⟩
    · exact fun _ => rfl
    · exact fun hp => Point.noConfusion hp
    · exact fun _ => rfl
    · exact fun _ => .inl (h.blockno_eq hx ▸ hdisk)

theorem Inv.store (hpoint : x.point.Ready) (data : Data) :
    Inv ((s.updBuf x.slot fun y => { y with data := data }).setUse u (some { x with point := .stored })) := by
  have hlock : (s.buf x.slot).lock = some u := h.lock_of_locks hx hpoint.locks
  refine h.turn (h.turned (fun y => { y with data := data }) hx rfl rfl rfl (fun _ _ => rfl) (fun _ _ => rfl)
    ⟨rfl, rfl, rfl⟩) (.inr hlock) ?_ ?_ ?_ ?_ (fun _ => .inr rfl) ?_
  all_goals rw [State.setUse_buf, State.updBuf_same]
  · exact .inl ⟨hlock, trivial⟩
  · exact fun _ => h.ready hx hpoint
  · exact fun hp => Point.noConfusion hp
  · exact fun hd => (h.dirty hd).1
  · exact h.disk_or_dirty hx

/-- `log_write`, and the beginning of `bwrite`. -/
theorem Inv.mark (hpoint : x.point.Ready) {p : Point} (hp : p = .holding ∨ p = .writing) :
    Inv ((s.mark x.slot).setUse u (some { x with point := p })) := by
  have hlock : (s.buf x.slot).lock = some u := h.lock_of_locks hx hpoint.locks
  have hvalid := h.ready hx hpoint
  have hsame : (s.mark x.slot).buf x.slot = { s.buf x.slot with dirty := true } :=
    Function.update_self _ _ _
  have hready : p.Locks := by rcases hp with rfl | rfl <;> trivial
  refine h.turn (h.turned (fun y => { y with dirty := true }) hx rfl rfl rfl (fun _ _ => rfl)
    (fun _ hc => Function.update_of_ne hc _ _) ⟨rfl, rfl, rfl⟩) (.inr hlock) ?_ ?_ ?_ ?_ (fun _ => .inl ?_) (.inr ?_)
  all_goals rw [State.setUse_buf, hsame]
  · exact .inl ⟨hlock, hready⟩
  · exact fun _ => hvalid
  · exact fun _ => rfl
  · exact fun _ => hvalid
  · simp only [State.setUse_last, State.mark, h.blockno_eq hx, Function.update_self]

/-- `bwrite` returns. -/
theorem Inv.written (hpoint : x.point = .writing) :
    Inv ((s.iderw x.slot).setUse u (some { x with point := .holding })) := by
  have hlock : (s.buf x.slot).lock = some u := h.lock_of_locks hx (hpoint ▸ trivial)
  have hdirty := h.writing hx hpoint
  have hvalid := (h.dirty hdirty).1
  have hdata := h.data_of_lock hx (.inr hlock) (hpoint ▸ Point.noConfusion) hvalid
  rw [State.iderw, if_pos hdirty]
  refine h.turn (h.turned (fun y => { y with valid := true, dirty := false }) hx rfl rfl rfl
    (fun _ hc => Function.update_of_ne hc _ _) (fun _ _ => rfl) ⟨rfl, rfl, rfl⟩) (.inr hlock) ?_ ?_ ?_ ?_ ?_ (.inl ?_)
  · rw [State.setUse_buf, State.updBuf_same]
    exact .inl ⟨hlock, trivial⟩
  · rw [State.setUse_buf, State.updBuf_same]
    exact fun _ => rfl
  · exact fun hp => Point.noConfusion hp
  · rw [State.setUse_buf, State.updBuf_same]
    exact fun _ => rfl
  · rw [State.setUse_buf, State.updBuf_same]
    exact fun _ => .inl hdata
  · simp only [State.setUse_disk, h.blockno_eq hx, Function.update_self]
    exact hdata

theorem Inv.brelse (hpoint : x.point = .holding) :
    Inv ((s.updBuf x.slot fun y => { y with lock := none }).setUse u (some { x with point := .releasing })) := by
  have hlock : (s.buf x.slot).lock = some u := h.lock_of_locks hx (hpoint ▸ trivial)
  refine h.turn (h.turned (fun y => { y with lock := none }) hx rfl rfl rfl (fun _ _ => rfl) (fun _ _ => rfl)
    ⟨rfl, rfl, rfl⟩) (.inr hlock) ?_ ?_ ?_ ?_ ?_ ?_
  all_goals rw [State.setUse_buf, State.updBuf_same]
  · exact .inr ⟨rfl, fun hp => hp⟩
  · exact fun hp => hp.elim
  · exact fun hp => Point.noConfusion hp
  · exact fun hd => (h.dirty hd).1
  · exact fun hv => .inl (h.data_of_lock hx (.inr hlock) (hpoint ▸ Point.noConfusion) hv)
  · exact h.disk_or_dirty hx

end Steps

/-- The points at which `bread` has returned and the disk is not waited for. -/
theorem ready_of_mem {p : Point} (hp : p ∈ [Point.holding, .stored]) : p.Ready := by
  rcases List.mem_pair.mp hp with rfl | rfl <;> trivial

theorem Inv.step (h : Inv s) {a : Action Data} (hstep : step s a = some t) : Inv t := by
  cases a with
  | bread u b =>
    simp only [Bio.step, Option.ite_none_right_eq_some, Option.map_eq_some_iff] at hstep
    obtain ⟨hidle, ⟨v, i⟩, hget, rfl⟩ := hstep
    exact h.bread hidle hget
  | lock u =>
    simp only [Bio.step, Option.ite_none_right_eq_some] at hstep
    obtain ⟨hunlocked, hturn⟩ := hstep
    obtain ⟨x, hx, hp, rfl⟩ := State.of_turn hturn
    rw [State.unlocked, hx] at hunlocked
    exact h.lock hx (Option.isNone_iff_eq_none.mp hunlocked) (List.mem_singleton.mp hp)
  | read u =>
    rw [Bio.step] at hstep
    obtain ⟨x, hx, hp, rfl⟩ := State.of_turn hstep
    exact h.read hx (List.mem_singleton.mp hp)
  | store u data =>
    rw [Bio.step] at hstep
    obtain ⟨x, hx, hp, rfl⟩ := State.of_turn hstep
    exact h.store hx (ready_of_mem hp) data
  | logWrite u =>
    rw [Bio.step] at hstep
    obtain ⟨x, hx, hp, rfl⟩ := State.of_turn hstep
    exact h.mark hx (ready_of_mem hp) (.inl rfl)
  | bwrite u =>
    rw [Bio.step] at hstep
    obtain ⟨x, hx, hp, rfl⟩ := State.of_turn hstep
    exact h.mark hx (ready_of_mem hp) (.inr rfl)
  | written u =>
    rw [Bio.step] at hstep
    obtain ⟨x, hx, hp, rfl⟩ := State.of_turn hstep
    exact h.written hx (List.mem_singleton.mp hp)
  | brelse u =>
    rw [Bio.step] at hstep
    obtain ⟨x, hx, hp, rfl⟩ := State.of_turn hstep
    exact h.brelse hx (List.mem_singleton.mp hp)
  | unref u =>
    rw [Bio.step] at hstep
    obtain ⟨x, hx, hp, rfl⟩ := State.of_turn hstep
    exact h.unref hx (List.mem_singleton.mp hp)

theorem Inv.binit (data : Slot → Data) (disk : Nat → Data) : Inv (State.binit data disk) := by
  have hempty : Links.Cycle { next := fun _ => none, prev := fun _ => none } ([] : List Slot) :=
    ⟨⟨rfl, rfl⟩, List.nodup_nil⟩
  have hcaches : ∀ {b i}, (State.binit data disk).caches b i = false := by
    intro b i
    exact decide_eq_false fun h => Nat.zero_ne_one h.1
  constructor
  case cycle =>
    refine ⟨_, hempty.foldl_pushFront (List.nodup_finRange NBUF) fun _ _ => List.not_mem_nil, fun i => ?_⟩
    simp
  case unique => exact fun hi => absurd (hcaches.symm.trans hi) Bool.false_ne_true
  case counted => exact fun i => ⟨∅, fun u => by simp [State.binit], rfl⟩
  case uses => exact fun hx => absurd hx.symm (Option.some_ne_none _)
  case locked => exact fun {i u} => by simp [State.binit]
  case ready => exact fun hx => absurd hx.symm (Option.some_ne_none _)
  case writing => exact fun hx => absurd hx.symm (Option.some_ne_none _)
  case dirty => exact fun hd => absurd hd Bool.false_ne_true
  case data => exact fun hi => absurd (hcaches.symm.trans hi) Bool.false_ne_true
  case settled => exact fun _ => .inl rfl

theorem Run.inv {data : Slot → Data} {disk : Nat → Data} (h : Run (.binit data disk) s) : Inv s := by
  induction h with
  | refl => exact Inv.binit data disk
  | step _ a hstep ih => exact ih.step hstep

/-! ## Coherence -/

/-- Which block is in a buffer. -/
def Buf.identity (y : Buf Data) : Nat × Nat := (y.dev, y.blockno)

theorem identity_update {bufs : Slot → Buf Data} {y : Buf Data} (hy : y.identity = (bufs i).identity) :
    (Function.update bufs i y j).identity = (bufs j).identity := by
  by_cases hj : j = i
  · rw [hj, Function.update_self, hy]
  · rw [Function.update_of_ne hj]

theorem identity_iderw : ((s.iderw i).buf j).identity = (s.buf j).identity := by
  unfold State.iderw
  split <;> exact identity_update rfl

theorem identity_unref : ((s.unref i).buf j).identity = (s.buf j).identity := by
  unfold State.unref
  split <;> exact identity_update rfl

/-- A turn changes no identity if what is done to the buffer changes none. -/
theorem identity_turn {points : List Point} {f : Slot → State Data} {next : Option Point}
    (h : s.turn u points f next = some t) (hf : ∀ i, ((f i).buf j).identity = (s.buf j).identity) :
    (t.buf j).identity = (s.buf j).identity := by
  obtain ⟨x, -, -, rfl⟩ := State.of_turn h
  exact hf x.slot

/-- Only `bread` of a block that is not cached gives a buffer to another block. -/
theorem Inv.identity_step (h : Inv s) {a : Action Data} (hstep : Bio.step s a = some t)
    (hi : (t.buf i).identity ≠ (s.buf i).identity) : s.unused i = true := by
  by_contra hused
  refine hi ?_
  cases a with
  | bread u b =>
    simp only [Bio.step, Option.ite_none_right_eq_some, Option.map_eq_some_iff] at hstep
    obtain ⟨-, ⟨v, k⟩, hget, rfl⟩ := hstep
    rw [State.setUse_buf]
    rcases h.bget_cases hget with ⟨-, rfl⟩ | ⟨-, hk, rfl⟩
    · exact identity_update rfl
    · have hik : i ≠ k := fun hik => hused (hik ▸ hk)
      rw [State.updBuf_of_ne hik]
  | lock u =>
    simp only [Bio.step, Option.ite_none_right_eq_some] at hstep
    exact identity_turn hstep.2 fun _ => identity_update rfl
  | read u =>
    rw [Bio.step] at hstep
    refine identity_turn hstep fun k => ?_
    split
    · rfl
    · exact identity_iderw
  | store u data =>
    rw [Bio.step] at hstep
    exact identity_turn hstep fun _ => identity_update rfl
  | logWrite u =>
    rw [Bio.step] at hstep
    exact identity_turn hstep fun _ => identity_update rfl
  | bwrite u =>
    rw [Bio.step] at hstep
    exact identity_turn hstep fun _ => identity_update rfl
  | written u =>
    rw [Bio.step] at hstep
    exact identity_turn hstep fun _ => identity_iderw
  | brelse u =>
    rw [Bio.step] at hstep
    exact identity_turn hstep fun _ => identity_update rfl
  | unref u =>
    rw [Bio.step] at hstep
    exact identity_turn hstep fun _ => identity_unref

/-- A block is in one buffer, the list goes through all buffers both ways, no buffer in
    use or dirty is recycled, and `bread` returns what was last stored. -/
theorem cache_coherent {data : Slot → Data} {disk : Nat → Data} (h : Run (.binit data disk) s) :
    (∀ b i j, s.caches b i = true → s.caches b j = true → i = j) ∧
    (∃ l : List Slot, l.Perm (List.finRange NBUF) ∧ s.links.Cycle l) ∧
    (∀ a t i, step s a = some t → (t.buf i).identity ≠ (s.buf i).identity →
      (s.buf i).refcnt = 0 ∧ (s.buf i).dirty = false ∧ ∀ u x, s.use u = some x → x.slot ≠ i) ∧
    (∀ u x t, s.use u = some x → step s (.read u) = some t →
      t.use u = some { x with point := .holding } ∧ (t.buf x.slot).data = s.last x.block) := by
  have hinv := h.inv
  refine ⟨fun b i j => hinv.unique, ?_, ?_, ?_⟩
  · obtain ⟨l, hl, hall⟩ := hinv.cycle
    refine ⟨l, (List.perm_ext_iff_of_nodup hl.nodup (List.nodup_finRange NBUF)).mpr fun i => ?_, hl⟩
    exact iff_of_true (hall i) (List.mem_finRange i)
  · intro a t i hstep hi
    have hunused := hinv.identity_step hstep hi
    obtain ⟨hrefcnt, hclean⟩ := State.unused_iff.mp hunused
    exact ⟨hrefcnt, hclean, fun u x => hinv.not_used hunused⟩
  · intro u x t hx hstep
    have hafter := hinv.step hstep
    rw [Bio.step] at hstep
    obtain ⟨y, hy, hp, rfl⟩ := State.of_turn hstep
    obtain rfl : y = x := Option.some.inj (hy.symm.trans hx)
    have huse : ∀ v : State Data, (v.setUse u (some { y with point := .holding })).use u =
        some { y with point := .holding } := fun v => Function.update_self _ _ _
    refine ⟨huse _, ?_⟩
    have hdata := hafter.data_of_lock (huse _) (.inr (hafter.lock_of_locks (huse _) trivial)) Point.noConfusion
      (hafter.ready (huse _) trivial)
    refine hdata.trans ?_
    split
    · rfl
    · unfold State.iderw
      split <;> rfl

theorem Run.of_foldlM {s₀ : State Data} {actions : List (Action Data)} (h : Run s₀ s)
    (hrun : actions.foldlM Bio.step s = some t) : Run s₀ t := by
  induction actions generalizing s with
  | nil => exact Option.some.inj hrun ▸ h
  | cons a rest ih =>
    rw [List.foldlM_cons, Option.bind_eq_bind, Option.bind_eq_some_iff] at hrun
    obtain ⟨v, hv, hrun⟩ := hrun
    exact ih (.step h a hv) hrun

/-- One use stores 7 in block 5 and marks it, and another is about to read it. -/
def storedBlock : List (Action Nat) :=
  [.bread 0 5, .lock 0, .read 0, .store 0 7, .bread 1 5, .logWrite 0, .brelse 0, .unref 0, .lock 1]

theorem cache_coherent_storedBlock : ∃ s t x, Run (.binit (fun _ => 0) id) s ∧ s.use 1 = some x ∧ x.block = 5 ∧
    s.last 5 = 7 ∧ step s (.read 1) = some t ∧ (t.buf x.slot).data = s.last x.block := by
  have hplay : (storedBlock.foldlM step (.binit (fun _ => 0) id)).any (fun s =>
      (s.use 1).any (fun x => x.block = 5) ∧ s.last 5 = 7 ∧ (step s (.read 1)).isSome) = true := by
    decide +kernel
  rw [Option.any_eq_true] at hplay
  obtain ⟨s, hs, hplay⟩ := hplay
  obtain ⟨huse, hlast, hstep⟩ := of_decide_eq_true hplay
  obtain ⟨x, hx, hblock⟩ := Option.any_eq_true _ _ |>.mp huse
  obtain ⟨t, ht⟩ := Option.isSome_iff_exists.mp hstep
  have hrun := Run.of_foldlM .refl hs
  exact ⟨s, t, x, hrun, hx, of_decide_eq_true hblock, hlast, ht, ((cache_coherent hrun).2.2.2 1 x t hx ht).2⟩

end Xv6.Bio
