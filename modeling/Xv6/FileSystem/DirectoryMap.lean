-- SUMMARY: A directory that dirlink and sys_unlink work on is a finite map from names to inode numbers.
import Xv6.FileSystem.Listing
import Xv6.FileSystem.Image

/-! # Directories as maps

`Fs.Built` follows one directory through the calls of `dirlink` and the erasures of
`sys_unlink`, with any code in between that leaves the directory alone. The map it stands
for is read off the history of these calls (`lastLinked`).

`dirlink` drops the inode that it finds under a name with `iput`, which takes the lock of
that inode. It never gets it where the name stands for an inode that the caller has
locked, and the caller has the directory itself locked.
-/

namespace Xv6

open Prog Fs SlotTable

variable {s t u v : Fs} {dp ip : InodePtr} {d n : Nat} {name : CString}

/-! ## The calls -/

/-- The caller has directory `d` locked and a transaction open. Nobody has locked an
    inode without a reference to it. -/
structure Fs.Working (s : Fs) (d : Nat) (dp : InodePtr) : Prop where
  tidy : s.Tidy
  dir : s.Dir dp
  inum : (s.icache dp).inum = d
  locked : (s.icache dp).locked = true
  refs : ∀ jp, 0 ≤ (s.icache jp).ref
  unheld : ∀ jp, (s.icache jp).ref = 0 → (s.icache jp).locked = false
  transaction : 1 ≤ s.log.outstanding

/-- The inode that `name` stands for in directory `d` is not locked. -/
def Fs.Clear (s : Fs) (d : Nat) (name : CString) : Prop :=
  ∀ m, s.target d name.key = some m → ∀ jp, s.Held jp → (s.icache jp).inum = m → (s.icache jp).locked = false

/-- The inode cache is full. -/
def Fs.CacheFull (s : Fs) (e : Stop) : Prop := e = .igetNoInodes ∧ ∀ jp, (s.icache jp).ref ≠ 0

/-- The inode cache, the disk or the log is full. -/
def Fs.Exhausted (s : Fs) (e : Stop) : Prop :=
  s.CacheFull e ∨ e = .ballocOutOfBlocks ∨ e = .tooBigTransaction

/-- `r` is the result of a lookup of a name that stands for `m`: the inode and the offset
    of its entry. -/
inductive Fs.Looked (s t : Fs) (d : Nat) (key : List UInt8) : Option Nat → Option (InodePtr × Nat) → Prop where
  | absent : Looked s t d key none none
  | present (ip : InodePtr) (k : Nat) (held : t.Held ip) (inside : k < s.slots d)
      (entry : s.slot d k = some (key, (t.icache ip).inum)) :
      Looked s t d key (some (t.icache ip).inum) (some (ip, k * DIRENTSIZE))

/-- `r` is what `dirlink` returns for a name that stands for `m`, and `t` has the directory
    that it leaves. -/
inductive Fs.Linking (s t : Fs) (d : Nat) (key : List UInt8) (n : Nat) : Option Nat → Int → Prop where
  | refused (m : Nat) (same : SameFile s t d) : Linking s t d key n (some m) (-1)
  | done (inserted : Inserted (s.slot d) (s.slots d) key n (t.slot d) (t.slots d))
      (only : t.target d = Function.update (s.target d) key (some n)) (aligned : t.Aligned d) :
      Linking s t d key n none 0

namespace Fs.Working

theorem listed (hw : s.Working d dp) (hal : s.Aligned d) : s.Listed dp d := ⟨hw.tidy, hw.dir, hw.inum, hal⟩

theorem covered (hw : s.Working d dp) : s.Covered (Own.none.hold dp) := by
  intro jp
  have hdp : 0 < (s.icache dp).ref := hw.dir.loaded.1
  have hjp := hw.refs jp
  unfold Own.hold Own.none
  split
  · next heq =>
    rw [heq]
    omega
  · omega

theorem looked (hw : s.Working d dp) (hal : s.Aligned d) (name : CString) :
    wp (dirlookup dp name.bytes) (fun r t => t.Tidy ∧ Same s t ∧ Looked s t d name.key (s.target d name.key) r)
      s.CacheFull s := by
  refine wp_dirlookup (hw.listed hal) (fun hnone => ?_) fun k m hk hslot => ?_
  · rw [show s.target d name.key = none from value_of_find_none hnone]
    exact ⟨hw.tidy, .refl s, .absent⟩
  · have hlt := (find_eq_some_iff.mp hk).1
    refine wp_iget_got True hw.tidy hw.covered ((hw.listed hal).slot_lt hlt hslot) (fun hfull _ => ⟨rfl, hfull⟩)
      fun ip t hg => ?_
    have hheld : t.Held ip := (hg.step.covered hw.covered).held (Own.hold_pos _ ip)
    have hm : s.target d name.key = some m := value_of_find hk hslot
    rw [hm, ← hg.inum]
    rw [← hg.inum] at hslot
    exact ⟨hg.step.tidy, hg.same, .present ip k hheld hlt hslot⟩

/-- What `dirlink` does to the directory, if it does not wait for a lock of its caller. -/
theorem linking (hw : s.Working d dp) (hal : s.Aligned d) (hu : Unique (s.slot d) (s.slots d))
    (hclear : s.Clear d name) (hpos : 0 < n) (hn : n < 2 ^ 16) :
    wp (dirlink dp name.bytes n) (fun r t => Linking s t d name.key n (s.target d name.key) r) s.Exhausted s := by
  have hlog : MayLog s.Exhausted s := ⟨.inr (.inr rfl), .inl hw.transaction⟩
  refine wp_dirlink (hw.listed hal) hpos hn (.inr (.inl rfl)) hlog (fun k m hk hslot => ?_) fun hnone t hal' hins => ?_
  · have hlt := (find_eq_some_iff.mp hk).1
    have hm : s.target d name.key = some m := value_of_find hk hslot
    refine wp_iget_got True hw.tidy hw.covered ((hw.listed hal).slot_lt hlt hslot) (fun hfull _ => .inl ⟨rfl, hfull⟩)
      fun ip t hg => ?_
    have hfree : (t.icache ip).locked = false := by
      rw [hg.locked]
      rcases hg.old with ⟨hip, hinum, -⟩ | ⟨href, -⟩
      · exact hclear m hm ip hip hinum
      · exact hw.unheld ip href
    have hc := hg.step.covered hw.covered
    refine (wp_iput True hg.step.tidy hc (hlog.congr (by rw [hg.log])) fun hlocked => ?_).post ?_
    · rw [hfree] at hlocked
      cases hlocked
    · rintro - u ⟨hst, hsteady⟩
      have hboth := hg.step.trans hst
      have hsame := hw.dir.sameFile (hg.steady.trans hsteady) hboth.tidy (hboth.covered hw.covered) (Own.hold_pos _ dp)
      rw [hw.inum] at hsame
      rw [hm]
      exact .refused m hsame
  · rw [show s.target d name.key = none from value_of_find_none hnone]
    exact .done hins (value_insert hu hnone hins) hal'

/-- Where the name stands for an inode that the caller has locked, `dirlink` does not return. -/
theorem sleeps (hw : s.Working d dp) (hal : s.Aligned d) (n : Nat) (hclear : ¬ s.Clear d name) :
    wp (dirlink dp name.bytes n) (fun _ _ => False) (· = .asleep) s := by
  simp only [Clear, not_forall, exists_prop, Bool.not_eq_false] at hclear
  obtain ⟨m, hm, jp, hjp, hinum, hlocked⟩ := hclear
  simp only [dirlink, wp_bind]
  refine wp_dirlookup (hw.listed hal) (fun hnone => ?_) fun k m' hk hslot => ?_
  · rw [show s.target d name.key = none from value_of_find_none hnone] at hm
    cases hm
  · rw [show s.target d name.key = some m' from value_of_find hk hslot] at hm
    cases hm
    refine wp_iget_full (fun _ hnew => absurd hinum (hnew jp hjp)) (fun ip hip heq => ?_) fun ip _ hnew =>
      absurd hinum (hnew jp hjp)
    obtain rfl := hw.tidy.cacheInj ip jp hip hjp (heq.trans hinum.symm)
    have hentry : ((s.addRef ip).icache ip).locked = true := by
      rw [addRef, setInode_icache_same]
      exact hlocked
    simp only [iput, wp_bind, wp_deref, hentry, if_pos, wp_throw]

end Fs.Working

/-! ## Histories -/

/-- What happens to a directory. -/
inductive Change where
  | link (name : CString) (inum : Nat)
  | erase (name : CString)

/-- The inode last linked under a name and not erased since. The latest change comes first. -/
def lastLinked : List Change → List UInt8 → Option Nat
  | [], _ => none
  | .link name n :: h, key => if key = name.key then some n else lastLinked h key
  | .erase name :: h, key => if key = name.key then none else lastLinked h key

theorem lastLinked_link (h : List Change) (name : CString) (n : Nat) :
    lastLinked (.link name n :: h) = Function.update (lastLinked h) name.key (some n) := by
  funext key
  rw [Function.update_apply]
  rfl

theorem lastLinked_erase (h : List Change) (name : CString) :
    lastLinked (.erase name :: h) = Function.update (lastLinked h) name.key none := by
  funext key
  rw [Function.update_apply]
  rfl

/-- Directory `d` was made with the entries that `mkfs` gave it and changed by the calls in
    the history, latest first. -/
inductive Fs.Built (d : Nat) : List Change → Fs → Prop where
  | mkfs {s : Fs} (es : List (CString × Nat)) (tidy : s.Tidy) (aligned : s.Aligned d)
      (ninodes : s.sb.ninodes ≤ 2 ^ 16) (fits : es.length ≤ s.slots d)
      (entries : ∀ k < s.slots d, s.slot d k = es[k]?.map fun e => (e.1.key, e.2))
      (distinct : (es.map (·.1.key)).Nodup) : Built d (es.map fun e => .link e.1 e.2) s
  | other {h : List Change} {s t : Fs} (before : Built d h s) (tidy : t.Tidy) (sb : t.sb = s.sb)
      (same : SameFile s t d) : Built d h t
  | link {h : List Change} {s t : Fs} {dp : InodePtr} {name : CString} {n : Nat} {r : Int} (before : Built d h s)
      (working : s.Working d dp) (pos : 0 < n) (lt : n < s.sb.ninodes)
      (run : dirlink dp name.bytes n s = .ok (r, t)) : Built d (if r = 0 then .link name n :: h else h) t
  | erase {h : List Change} {s t u v : Fs} {dp ip : InodePtr} {name : CString} {off : Nat} {r : Int}
      (before : Built d h s) (working : s.Working d dp)
      (lookup : dirlookup dp name.bytes s = .ok (some (ip, off), t))
      -- `ilock(ip)` and `isdirempty(ip)` come between
      (still : u.Working d dp) (sb : u.sb = t.sb) (same : SameFile t u d)
      (run : writei dp Bytes.zero (UInt32.ofNat off) (UInt32.ofNat DIRENTSIZE) u = .ok (r, v)) :
      Built d (.erase name :: h) v

/-- What holds of a directory with history `h`. -/
structure Fs.Maps (s : Fs) (d : Nat) (h : List Change) : Prop where
  tidy : s.Tidy
  aligned : s.Aligned d
  ninodes : s.sb.ninodes ≤ 2 ^ 16
  unique : Unique (s.slot d) (s.slots d)
  target : s.target d = lastLinked h

namespace Fs.Maps

variable {h : List Change}

theorem of_same (hm : s.Maps d h) (tidy : t.Tidy) (sb : t.sb = s.sb) (same : SameFile s t d) : t.Maps d h := by
  refine ⟨tidy, same.aligned hm.aligned, ?_, ?_, ?_⟩
  · rw [sb]
    exact hm.ninodes
  · rw [same.slot, same.slots]
    exact hm.unique
  · rw [same.target]
    exact hm.target

theorem lastLinked_entries {es : List (CString × Nat)} (hdistinct : (es.map (·.1.key)).Nodup) (key : List UInt8)
    (m : Nat) : lastLinked (es.map fun e => .link e.1 e.2) key = some m ↔ ∃ e ∈ es, e.1.key = key ∧ e.2 = m := by
  induction es with
  | nil => simp [lastLinked]
  | cons e es ih =>
    rw [List.map_cons, List.nodup_cons] at hdistinct
    rw [List.map_cons]
    simp only [lastLinked, List.exists_mem_cons_iff]
    split
    · next heq =>
      rw [Option.some.injEq, heq]
      refine ⟨fun hm => .inl ⟨rfl, hm⟩, ?_⟩
      rintro (⟨-, hm⟩ | ⟨e', he', hkey, -⟩)
      · exact hm
      · exact absurd (List.mem_map.mpr ⟨e', he', hkey⟩) hdistinct.1
    · next hne =>
      rw [ih hdistinct.2]
      refine ⟨.inr, ?_⟩
      rintro (⟨hkey, -⟩ | hm)
      · exact absurd hkey.symm hne
      · exact hm

theorem mkfs {es : List (CString × Nat)} (tidy : s.Tidy) (aligned : s.Aligned d) (ninodes : s.sb.ninodes ≤ 2 ^ 16)
    (fits : es.length ≤ s.slots d) (entries : ∀ k < s.slots d, s.slot d k = es[k]?.map fun e => (e.1.key, e.2))
    (distinct : (es.map (·.1.key)).Nodup) : s.Maps d (es.map fun e => .link e.1 e.2) := by
  have hslot : ∀ k < s.slots d, ∀ key m, s.slot d k = some (key, m) ↔ ∃ e, es[k]? = some e ∧ e.1.key = key ∧ e.2 = m := by
    intro k hk key m
    rw [entries k hk, Option.map_eq_some_iff]
    refine exists_congr fun e => and_congr_right fun _ => ?_
    rw [Prod.mk.injEq]
  have hunique : Unique (s.slot d) (s.slots d) := by
    intro i hi j hj key x y hx hy
    obtain ⟨e, he, hkey, -⟩ := (hslot i hi key x).mp hx
    obtain ⟨e', he', hkey', -⟩ := (hslot j hj key y).mp hy
    have hlt : i < (es.map (·.1.key)).length := by
      rw [List.length_map]
      exact (List.getElem?_eq_some_iff.mp he).1
    refine (List.getElem?_inj hlt distinct).mp ?_
    rw [List.getElem?_map, List.getElem?_map, he, he', Option.map_some, Option.map_some, hkey, hkey']
  refine ⟨tidy, aligned, ninodes, hunique, ?_⟩
  funext key
  ext m
  unfold Fs.target
  rw [hunique.value_eq_some_iff, lastLinked_entries distinct]
  constructor
  · rintro ⟨i, hi, hm⟩
    obtain ⟨e, he, hkey⟩ := (hslot i hi key m).mp hm
    exact ⟨e, List.mem_of_getElem? he, hkey⟩
  · rintro ⟨e, he, hkey⟩
    obtain ⟨i, hi⟩ := List.mem_iff_getElem?.mp he
    have hlt : i < s.slots d := (List.getElem?_eq_some_iff.mp hi).1.trans_le fits
    exact ⟨i, hlt, (hslot i hlt key m).mpr ⟨e, hi, hkey⟩⟩

theorem link {r : Int} (hm : s.Maps d h) (hw : s.Working d dp) (hpos : 0 < n) (hlt : n < s.sb.ninodes)
    (hrun : dirlink dp name.bytes n s = .ok (r, t)) :
    t.Maps d (if r = 0 then .link name n :: h else h) := by
  obtain ⟨bn, hlinked⟩ := (runs_dirlink True hw.tidy hw.covered hw.dir.loaded (Own.hold_pos _ dp) hlt).of_run hrun
  have hclear : s.Clear d name := by
    by_contra hnot
    exact (hw.sleeps hm.aligned n hnot).of_run hrun
  have hlinking := (hw.linking hm.aligned hm.unique hclear hpos (hlt.trans_le hm.ninodes)).of_run hrun
  generalize htarget : s.target d name.key = m at hlinking
  cases hlinking with
  | refused m same => exact hm.of_same hlinked.step.tidy hlinked.step.sb same
  | done inserted only aligned =>
    have hnone : find (s.slot d) (s.slots d) name.key = none :=
      find_eq_none_iff.mpr (value_eq_none_iff.mp htarget)
    refine ⟨hlinked.step.tidy, aligned, ?_, hm.unique.insert hnone inserted, ?_⟩
    · rw [hlinked.step.sb]
      exact hm.ninodes
    · rw [only, if_pos rfl, lastLinked_link, hm.target]

/-- `memset(&de, 0, sizeof(de)); writei(dp, &de, off, sizeof(de))` for the entry of a name. -/
theorem erase_entry {k : Nat} {r : Int} (hm : u.Maps d h) (hw : u.Working d dp)
    (hk : find (u.slot d) (u.slots d) name.key = some k)
    (hrun : writei dp Bytes.zero (UInt32.ofNat (k * DIRENTSIZE)) (UInt32.ofNat DIRENTSIZE) u = .ok (r, v)) :
    v.Maps d (.erase name :: h) := by
  have hl := hw.listed hm.aligned
  have hlt := (find_eq_some_iff.mp hk).1
  have hend : (k + 1) * DIRENTSIZE ≤ (u.icache dp).size.toNat := by
    rw [hl.size_eq]
    exact Nat.mul_le_mul_right _ hlt
  have hmax := hw.dir.size_le hw.tidy
  have hoff : (UInt32.ofNat (k * DIRENTSIZE)).toNat = k * DIRENTSIZE :=
    toNat_ofNat_of_le ((Nat.mul_le_mul_right _ (Nat.le_succ k)).trans (hend.trans hmax))
  have hlen : (UInt32.ofNat DIRENTSIZE).toNat = DIRENTSIZE := rfl
  have hwrote : Wrote u v dp d (k * DIRENTSIZE) DIRENTSIZE Bytes.zero := by
    refine wp.of_run (Q := fun _ v => Wrote u v dp d (k * DIRENTSIZE) DIRENTSIZE Bytes.zero)
      (wp_writei_wrote trivial hw.tidy.toInv hw.dir.loaded.caches hw.dir.type_ne (mayLog_true u)
        (fun hbad => ?_) fun _ w hw' => ?_) hrun
    · rw [hoff, hlen, ← Nat.succ_mul] at hbad
      exact absurd (hend.trans hmax) (not_le.mpr hbad)
    · rw [hoff, hlen, hw.inum] at hw'
      exact hw'
  have hslot : ∀ l < u.slots d, v.slot d l = if l = k then none else u.slot d l := fun l _ => hwrote.slot_eq l
  have hsize : (v.view d).size = (u.view d).size := by
    apply UInt32.toNat_inj.mp
    rw [hwrote.size, if_pos (by decide), ← Nat.succ_mul, max_eq_left]
    rw [hm.aligned.size_eq]
    exact Nat.mul_le_mul_right _ hlt
  have hslots : v.slots d = u.slots d := by
    unfold slots
    rw [hsize]
  have hstep := Wrote.inPlace (o := Own.none) (A := True) (by rw [hw.inum]; exact hwrote) hw.tidy hw.dir hend
    (lt_of_le_of_lt (Nat.zero_le _) hw.tidy.root)
  refine ⟨hstep.tidy, ?_, ?_, ?_, ?_⟩
  · unfold Aligned
    rw [hsize]
    exact hm.aligned
  · rw [hstep.sb]
    exact hm.ninodes
  · rw [hslots]
    exact hm.unique.erase hslot
  · unfold Fs.target
    rw [lastLinked_erase, hslots, value_erase hm.unique hk hslot, ← hm.target]
    rfl

theorem erase {off : Nat} {r : Int} (hm : s.Maps d h) (hw : s.Working d dp)
    (hlookup : dirlookup dp name.bytes s = .ok (some (ip, off), t)) (hu : u.Working d dp) (sb : u.sb = t.sb)
    (same : SameFile t u d)
    (hrun : writei dp Bytes.zero (UInt32.ofNat off) (UInt32.ofNat DIRENTSIZE) u = .ok (r, v)) :
    v.Maps d (.erase name :: h) := by
  obtain ⟨htidy, hsame, hlooked⟩ := (hw.looked hm.aligned name).of_run hlookup
  have hmt : t.Maps d h := hm.of_same htidy hsame.sb (hsame.sameFile d)
  generalize s.target d name.key = m at hlooked
  cases hlooked with
  | present _ k _ inside entry =>
    refine erase_entry (k := k) (hmt.of_same hu.tidy sb same) hu ?_ hrun
    rw [same.slot, same.slots, (hsame.sameFile d).slot, (hsame.sameFile d).slots]
    -- no other entry has the name, so this one is the first
    refine find_eq_some_iff.mpr ⟨inside, ⟨_, entry⟩, fun i hi w hw => ?_⟩
    exact absurd (hm.unique i (hi.trans inside) k inside _ _ _ hw entry) (Nat.ne_of_lt hi)

end Fs.Maps

/-- The map is kept by every call. -/
theorem Fs.Built.maps {h : List Change} (hb : s.Built d h) : s.Maps d h := by
  induction hb with
  | mkfs es tidy aligned ninodes fits entries distinct => exact .mkfs tidy aligned ninodes fits entries distinct
  | other _ tidy sb same ih => exact ih.of_same tidy sb same
  | link _ working pos lt run ih => exact ih.link working pos lt run
  | erase _ working lookup still sb same run ih => exact ih.erase working lookup still sb same run

/-- A directory is a finite map: no name is there twice, and a lookup gives the inode last
    linked under the name and its entry. `dirlink` refuses the names that are there and puts
    any other one into the first free entry, as long as it does not come to a locked inode. -/
theorem directory_is_map (d : Nat) (h : List Change) (s : Fs) (hb : s.Built d h) :
    Unique (s.slot d) (s.slots d) ∧
    ∀ (dp : InodePtr) (name : CString), s.Working d dp →
      wp (dirlookup dp name.bytes)
        (fun r t => SameFile s t d ∧ Looked s t d name.key (lastLinked h name.key) r) s.CacheFull s ∧
      ∀ n, 0 < n → n < s.sb.ninodes →
        (wp (dirlink dp name.bytes n) (fun r t => Linking s t d name.key n (lastLinked h name.key) r) s.Exhausted s ↔
          s.Clear d name) := by
  have hm := hb.maps
  refine ⟨hm.unique, fun dp name hw => ⟨?_, fun n hpos hlt => ⟨fun hwp => ?_, fun hclear => ?_⟩⟩⟩
  · rw [← hm.target]
    refine (hw.looked hm.aligned name).post ?_
    rintro r t ⟨-, hsame, hlooked⟩
    exact ⟨hsame.sameFile d, hlooked⟩
  · by_contra hnot
    have hsleeps := wp_iff_run.mp (hw.sleeps hm.aligned n hnot)
    cases hrun : dirlink dp name.bytes n s with
    | ok r => exact hsleeps.1 r.1 r.2 hrun
    | error e =>
      have hstop := (wp_iff_run.mp hwp).2 e hrun
      rw [hsleeps.2 e hrun] at hstop
      unfold Exhausted CacheFull at hstop
      simp at hstop
  · rw [← hm.target]
    exact hw.linking hm.aligned hm.unique hclear hpos (hlt.trans_le hm.ninodes)

/-! ## A directory with a dot -/

def emptyDirectory : Dinode := { Dinode.blank with type := T_DIR, nlink := 1 }

/-- A disk whose root directory is empty, in a transaction that has the directory locked. -/
def emptyRoot : Fs := ((image emptyDirectory).setLog (image emptyDirectory).log.start).lockInode 0

def dotName : CString := ⟨[46], by decide⟩

theorem emptyRoot_same : Same (image emptyDirectory) emptyRoot :=
  .trans (.setLog _ _) (.lockInode ((image_inv rfl (by decide) (by decide)).setLog _) Int.one_pos)

theorem image_emptyDirectory_agree (P : Int16 → Prop) : (image emptyDirectory).Agree P := by
  intro ip hip _
  obtain ⟨rfl, -⟩ := (image.caches_iff emptyDirectory ip _).mp hip.caches
  exact (image.dinode_eq emptyDirectory (by decide)).trans (if_pos rfl)

theorem image_emptyDirectory_tidy : (image emptyDirectory).Tidy := by
  refine ⟨image_inv rfl (by decide) (by decide), fun i hi _ => ?_, image_emptyDirectory_agree _, fun ip hip => ?_,
    by decide⟩
  · have hempty : ((image emptyDirectory).view i).size.toNat = 0 := by
      rw [image.view_eq emptyDirectory hi.1]
      split <;> rfl
    refine ⟨fun bn hbn => ?_, fun k hk => ?_⟩
    · rw [hempty] at hbn
      exact absurd hbn (Nat.not_lt_zero _)
    · have hpos : 0 < DIRENTSIZE := by decide
      rw [hempty, Nat.succ_mul] at hk
      omega
  · rw [image_emptyDirectory_agree (fun _ => True) ip hip trivial]

theorem emptyRoot_step : Step True (image emptyDirectory) emptyRoot Own.none Own.none [] := by
  have hlog : Step True (image emptyDirectory) ((image emptyDirectory).setLog (image emptyDirectory).log.start)
      Own.none Own.none [] := .setLog image_emptyDirectory_tidy rfl
  exact hlog.trans (.lockInode hlog.tidy Int.one_pos fun hvalid => by cases hvalid)

theorem emptyRoot_working : emptyRoot.Working 1 0 :=
  ⟨emptyRoot_step.tidy, ⟨⟨Int.one_pos, rfl⟩, rfl⟩, rfl, rfl, by decide, by decide, Nat.le_refl 1⟩

theorem emptyRoot_built : emptyRoot.Built 1 [] := by
  have hsize : (emptyRoot.view 1).size = 0 := by
    rw [emptyRoot_same.view, image.view_eq emptyDirectory (by decide)]
    rfl
  have hslots : emptyRoot.slots 1 = 0 := by
    unfold slots
    rw [hsize]
    rfl
  refine .mkfs [] emptyRoot_step.tidy ?_ (by decide) (Nat.zero_le _) (fun k hk => ?_) List.nodup_nil
  · unfold Aligned
    rw [hsize]
    exact Nat.dvd_zero _
  · rw [hslots] at hk
    exact absurd hk (Nat.not_lt_zero k)

/-- The root directory with the entry `"."`, as its caller has it after `dirlink`. -/
theorem exists_dotRoot : ∃ s : Fs, s.Built 1 [.link dotName 1] ∧ s.Working 1 0 := by
  have hrun : (dirlink 0 dotName.bytes 1).returns emptyRoot (fun r s => r == 0 &&
      decide ((s.icache 0).valid = true ∧ (s.icache 0).type = T_DIR ∧ (s.icache 0).inum = 1 ∧
        (s.icache 0).locked = true ∧ 0 < (s.icache 0).ref ∧
        (∀ jp, 0 ≤ (s.icache jp).ref ∧ ((s.icache jp).ref = 0 → (s.icache jp).locked = false)) ∧
        1 ≤ s.log.outstanding)) = true := by
    decide +kernel
  obtain ⟨r, s, hrun, htest⟩ := exists_of_returns hrun
  simp only [Bool.and_eq_true, beq_iff_eq, decide_eq_true_eq] at htest
  obtain ⟨rfl, hvalid, htype, hinum, hlocked, hheld, hrefs, hout⟩ := htest
  have hw := emptyRoot_working
  have hb : s.Built 1 [.link dotName 1] := .link emptyRoot_built hw Nat.one_pos (by decide) hrun
  exact ⟨s, hb, hb.maps.tidy, ⟨⟨hheld, hvalid⟩, htype⟩, hinum, hlocked, fun jp => (hrefs jp).1,
    fun jp => (hrefs jp).2, hout⟩

/-- A lookup of the dot finds the directory itself. -/
theorem dotRoot_is_map : ∃ s : Fs, s.Built 1 [.link dotName 1] ∧ s.Working 1 0 ∧
    wp (dirlookup 0 dotName.bytes) (fun r t => SameFile s t 1 ∧ Looked s t 1 dotName.key (some 1) r) s.CacheFull s := by
  obtain ⟨s, hb, hw⟩ := exists_dotRoot
  exact ⟨s, hb, hw, ((directory_is_map 1 [.link dotName 1] s hb).2 0 dotName hw).1⟩

/-- `dirlink` of a dot that is there does not fail: it waits for the lock that its caller has. -/
theorem dirlink_dot_sleeps : ∃ s : Fs, s.Built 1 [.link dotName 1] ∧ s.Working 1 0 ∧
    lastLinked [.link dotName 1] dotName.key = some 1 ∧ dirlink 0 dotName.bytes 2 s = .error .asleep := by
  obtain ⟨s, hb, hw⟩ := exists_dotRoot
  have htarget : s.target 1 dotName.key = some 1 := by
    rw [hb.maps.target]
    rfl
  have hclear : ¬ s.Clear 1 dotName := by
    intro hclear
    have := hclear 1 htarget 0 hw.dir.loaded.1 hw.inum
    rw [hw.locked] at this
    cases this
  have hsleeps := wp_iff_run.mp (hw.sleeps hb.maps.aligned 2 hclear)
  refine ⟨s, hb, hw, rfl, ?_⟩
  cases hrun : dirlink 0 dotName.bytes 2 s with
  | ok r => exact (hsleeps.1 r.1 r.2 hrun).elim
  | error e => rw [hsleeps.2 e hrun]

end Xv6
