-- SUMMARY: A directory as a table of names, and exact rules for dirlookup and dirlink over it.
import Xv6.Base.SlotTable
import Xv6.FileSystem.DirectoryCalls

/-! # Listings

The entries of a directory are the slots of a table: an entry with inode number zero is
empty, any other one has its name as key. `dirlookup` finds the first slot with the name,
`dirlink` puts a new name into the first empty slot or behind the last one.
-/

namespace Xv6

open Prog Fs SlotTable

variable {s t : Fs} {dp : InodePtr} {d : Nat}

/-! ## Names -/

/-- A C string: its bytes before the NUL. -/
structure CString where
  bytes : List UInt8
  noNul : 0 ∉ bytes

/-- What a directory keeps of a name. -/
def CString.key (name : CString) : List UInt8 := name.bytes.take DIRSIZ

namespace Dirent

def slot (de : Dirent) : Option (List UInt8 × Nat) :=
  if de.inum = 0 then none else some (de.name, de.inum.toNat)

theorem length_name_ofBytes (bs : List UInt8) : (ofBytes bs).name.length ≤ DIRSIZ := by
  unfold ofBytes
  calc (((bs.drop 2).take DIRSIZ).takeWhile (· ≠ 0)).length
      ≤ ((bs.drop 2).take DIRSIZ).length := (List.takeWhile_prefix _).length_le
    _ ≤ DIRSIZ := List.length_take_le _ _

/-- A name is read back as it was written, cut to `DIRSIZ` bytes. -/
theorem ofBytes_bytes_name (inum : UInt16) (name : CString) :
    (ofBytes (({ inum := inum, name := name.bytes } : Dirent).bytes.slice 0 DIRENTSIZE)).name = name.key := by
  have hpad : (({ inum := inum, name := name.bytes } : Dirent).bytes.slice 0 DIRENTSIZE).drop 2 =
      name.key ++ List.replicate (DIRSIZ - name.key.length) 0 := by
    have hlen : name.key.length ≤ DIRSIZ := List.length_take_le _ _
    refine List.ext_getElem? fun i => ?_
    rw [List.getElem?_drop, List.getElem?_append, List.getElem?_replicate]
    unfold Bytes.slice
    rw [List.getElem?_map]
    by_cases hi : i < DIRSIZ
    · rw [List.getElem?_range (by unfold DIRENTSIZE; omega)]
      simp only [Option.map_some, Nat.zero_add, bytes, Nat.add_sub_cancel_left]
      rw [if_neg (by omega), if_neg (by omega), List.getD_eq_getElem?_getD]
      change some ((name.key[i]?).getD 0) = _
      split
      · next hlt => rw [List.getElem?_eq_getElem hlt, Option.getD_some]
      · next hge =>
        rw [List.getElem?_eq_none (not_lt.mp hge), if_pos (by omega)]
        rfl
    · rw [List.getElem?_eq_none (by simp [DIRENTSIZE]; omega), if_neg (by omega), if_neg (by omega)]
      rfl
  have hnul : ∀ c ∈ name.key, decide (c ≠ 0) = true := by
    intro c hc
    rw [decide_eq_true_eq]
    rintro rfl
    exact name.noNul (List.mem_of_mem_take hc)
  unfold ofBytes
  rw [hpad, List.take_of_length_le, List.takeWhile_append_of_pos hnul]
  · cases DIRSIZ - name.key.length with
    | zero => simp
    | succ m => simp [List.replicate_succ]
  · have hlen : name.key.length ≤ DIRSIZ := List.length_take_le _ _
    simp only [List.length_append, List.length_replicate]
    omega

end Dirent

theorem namecmp_iff {name : List UInt8} {de : Dirent} (h : de.name.length ≤ DIRSIZ) :
    namecmp name de.name = true ↔ de.name = name.take DIRSIZ := by
  unfold namecmp
  rw [decide_eq_true_eq, List.take_of_length_le h, eq_comm]

/-! ## The table -/

namespace Fs

def slot (s : Fs) (d k : Nat) : Option (List UInt8 × Nat) := (s.entry d k).slot

def slots (s : Fs) (d : Nat) : Nat := (s.view d).size.toNat / DIRENTSIZE

/-- The size is a whole number of entries. -/
def Aligned (s : Fs) (d : Nat) : Prop := DIRENTSIZE ∣ (s.view d).size.toNat

/-- The inode number that `name` stands for in directory `d`. -/
def target (s : Fs) (d : Nat) (key : List UInt8) : Option Nat := value (s.slot d) (s.slots d) key

theorem Aligned.size_eq (h : s.Aligned d) : (s.view d).size.toNat = s.slots d * DIRENTSIZE :=
  (Nat.div_mul_cancel h).symm

theorem SameFile.slot (h : SameFile s t d) : t.slot d = s.slot d := by
  funext k
  unfold Fs.slot entry
  rw [h.byte]

theorem SameFile.slots (h : SameFile s t d) : t.slots d = s.slots d := by
  unfold Fs.slots
  rw [h.size]

theorem SameFile.aligned (h : SameFile s t d) (hs : s.Aligned d) : t.Aligned d := by
  unfold Aligned
  rw [h.size]
  exact hs

theorem SameFile.target (h : SameFile s t d) : t.target d = s.target d := by
  unfold Fs.target
  rw [h.slot, h.slots]

theorem slot_eq_none_iff {k : Nat} : s.slot d k = none ↔ (s.entry d k).inum = 0 := by
  unfold slot Dirent.slot
  split <;> simp_all

theorem slot_of_inum_ne {k : Nat} (h : (s.entry d k).inum ≠ 0) :
    s.slot d k = some ((s.entry d k).name, (s.entry d k).inum.toNat) := by
  unfold slot Dirent.slot
  rw [if_neg h]

theorem length_entry_name (k : Nat) : (s.entry d k).name.length ≤ DIRSIZ := Dirent.length_name_ofBytes _

/-- A file without holes is no larger than the disk. -/
theorem Solid.size_le {i : Nat} (hs : s.Solid i) (h : s.Wf) : (s.view i).size.toNat ≤ FSSIZE * BSIZE := by
  by_contra hlt
  have hmapped : ∀ bn : Fin (FSSIZE + 1), s.blockAddr i bn ≠ 0 := fun bn =>
    hs bn ((Nat.mul_le_mul_right _ (Nat.lt_succ_iff.mp bn.isLt)).trans_lt (not_le.mp hlt))
  have hinj : Function.Injective fun bn : Fin (FSSIZE + 1) => (⟨_, h.blockAddr_lt (hmapped bn)⟩ : Fin FSSIZE) := by
    intro a b hab
    have heq : s.blockAddr i a = s.blockAddr i b := UInt32.toNat_inj.mp (Fin.mk.inj_iff.mp hab)
    exact Fin.ext (h.blockAddr_inj (hmapped a) heq).2
  have := Fintype.card_le_of_injective _ hinj
  simp only [Fintype.card_fin] at this
  omega

end Fs

/-! ## Lookup -/

/-- A directory in memory, of a whole number of entries. -/
structure Fs.Listed (s : Fs) (dp : InodePtr) (d : Nat) : Prop where
  tidy : s.Tidy
  dir : s.Dir dp
  inum : (s.icache dp).inum = d
  aligned : s.Aligned d

namespace Fs.Listed

theorem size_eq (h : s.Listed dp d) : (s.icache dp).size.toNat = s.slots d * DIRENTSIZE := by
  have := h.aligned.size_eq
  rw [← h.inum, h.dir.view h.tidy] at this
  rw [← h.inum]
  exact this

theorem lt_slots (h : s.Listed dp d) {k : Nat} : k * DIRENTSIZE < (s.icache dp).size.toNat ↔ k < s.slots d := by
  rw [h.size_eq]
  exact Nat.mul_lt_mul_right (by decide)

/-- The entries name inodes. -/
theorem slot_lt (h : s.Listed dp d) {k m : Nat} {key : List UInt8} (hk : k < s.slots d)
    (hslot : s.slot d k = some (key, m)) : m < s.sb.ninodes := by
  have hlive : (s.entry d k).inum ≠ 0 := by
    intro h0
    rw [slot_eq_none_iff.mpr h0] at hslot
    cases hslot
  rw [slot_of_inum_ne hlive] at hslot
  cases hslot
  have hnamed := (h.dir.ok h.tidy).2
  rw [h.inum] at hnamed
  apply hnamed k
  rw [h.aligned.size_eq]
  exact Nat.mul_le_mul_right _ hk

/-- Entry `k` is read whole. -/
theorem wp_readEntry (h : s.Listed dp d) {E : Stop → Prop} {Q : Int × List UInt8 → Fs → Prop} {k : Nat}
    (hk : k < s.slots d) (hQ : Q (DIRENTSIZE, (s.byte d).slice (k * DIRENTSIZE) DIRENTSIZE) s) :
    wp (readi dp (UInt32.ofNat (k * DIRENTSIZE)) (UInt32.ofNat DIRENTSIZE)) Q E s := by
  have hd := h.inum
  have hfit : readLen (s.icache dp).size.toNat (k * DIRENTSIZE) DIRENTSIZE = DIRENTSIZE := by
    have := h.size_eq
    have hle : (k + 1) * DIRENTSIZE ≤ s.slots d * DIRENTSIZE := Nat.mul_le_mul_right _ hk
    unfold readLen
    rw [Nat.succ_mul] at hle
    omega
  have hmax : MAXFILE * BSIZE + DIRENTSIZE < 2 ^ 32 := by decide
  have hsize := h.dir.size_le h.tidy
  have hoff := toNat_ofNat_of_le ((h.lt_slots.mpr hk).le.trans hsize)
  have hn : (UInt32.ofNat DIRENTSIZE).toNat = DIRENTSIZE := rfl
  have hlt := h.lt_slots.mpr hk
  rw [wp_readi_of_mapped h.tidy.toWf h.dir.loaded.caches (h.tidy.toInv.allocated h.dir.loaded.caches) h.dir.type_ne
    ((h.dir.ok h.tidy).1.mapped _ _), hoff, hn]
  unfold readReply
  rw [h.dir.view h.tidy, if_neg (by omega), hfit, hd]
  exact hQ

end Fs.Listed

section Lookup

variable {E : Stop → Prop} {name : List UInt8}

theorem wp_dirlookupLoop {Q : Option (InodePtr × Nat) → Fs → Prop} (h : s.Listed dp d)
    (hnone : find (s.slot d) (s.slots d) (name.take DIRSIZ) = none → Q none s)
    (hsome : ∀ k m, find (s.slot d) (s.slots d) (name.take DIRSIZ) = some k →
      s.slot d k = some (name.take DIRSIZ, m) → wp (iget m) (fun ip t => Q (some (ip, k * DIRENTSIZE)) t) E s) :
    ∀ fuel k, k ≤ s.slots d → s.slots d < fuel + k → (∀ i < k, ∀ m, s.slot d i ≠ some (name.take DIRSIZ, m)) →
      wp (dirlookupLoop dp name fuel (k * DIRENTSIZE)) Q E s := by
  intro fuel
  induction fuel with
  | zero =>
    intro k hle hlt
    omega
  | succ fuel ih =>
    intro k hle hlt hbefore
    simp only [dirlookupLoop, wp_bind, wp_deref]
    split
    · next hk =>
      rw [h.lt_slots] at hk
      -- the entries up to `k` do not have the name either
      have hnext : (∀ m, s.slot d k ≠ some (name.take DIRSIZ, m)) →
          wp (dirlookupLoop dp name fuel (k * DIRENTSIZE + DIRENTSIZE)) Q E s := by
        intro hno
        rw [← Nat.succ_mul]
        refine ih (k + 1) hk (by omega) fun i hi => ?_
        rcases Nat.lt_succ_iff_lt_or_eq.mp hi with hi | rfl
        · exact hbefore i hi
        · exact hno
      rw [wp_bind]
      refine h.wp_readEntry hk ?_
      rw [if_neg (fun hr => hr rfl)]
      change wp (if (s.entry d k).inum = 0 then _ else if namecmp name (s.entry d k).name then _ else _) Q E s
      split
      · next hfree =>
        refine hnext fun m hm => ?_
        rw [slot_eq_none_iff.mpr hfree] at hm
        cases hm
      · next hlive =>
        have hslot := slot_of_inum_ne hlive
        split
        · next hname =>
          rw [namecmp_iff (length_entry_name k)] at hname
          rw [hname] at hslot
          rw [wp_bind]
          exact hsome k _ (find_eq_some_iff.mpr ⟨hk, ⟨_, hslot⟩, hbefore⟩) hslot
        · next hname =>
          refine hnext fun m hm => hname ?_
          rw [namecmp_iff (length_entry_name k)]
          rw [hslot] at hm
          exact congrArg Prod.fst (Option.some.inj hm)
    · next hk =>
      rw [h.lt_slots] at hk
      refine hnone (find_eq_none_iff.mpr fun i hi => hbefore i ?_)
      omega

/-- `dirlookup` gets the inode of the first entry with the name. -/
theorem wp_dirlookup {Q : Option (InodePtr × Nat) → Fs → Prop} (h : s.Listed dp d)
    (hnone : find (s.slot d) (s.slots d) (name.take DIRSIZ) = none → Q none s)
    (hsome : ∀ k m, find (s.slot d) (s.slots d) (name.take DIRSIZ) = some k →
      s.slot d k = some (name.take DIRSIZ, m) → wp (iget m) (fun ip t => Q (some (ip, k * DIRENTSIZE)) t) E s) :
    wp (dirlookup dp name) Q E s := by
  simp only [dirlookup, wp_bind, wp_deref]
  rw [if_neg (not_not.mpr h.dir.type), ← Nat.zero_mul DIRENTSIZE]
  refine wp_dirlookupLoop h hnone hsome _ 0 (Nat.zero_le _) ?_ fun i hi => absurd hi (Nat.not_lt_zero i)
  have hle : s.slots d ≤ s.slots d * DIRENTSIZE := Nat.le_mul_of_pos_right _ (by decide)
  rw [h.size_eq]
  omega

end Lookup

/-! ## Link -/

section Link

variable {E : Stop → Prop}

theorem wp_dirlinkLoop {Q : Nat → Fs → Prop} (h : s.Listed dp d)
    (hQ : Q (vacant (s.slot d) (s.slots d) * DIRENTSIZE) s) :
    ∀ fuel k, k ≤ s.slots d → s.slots d < fuel + k → (∀ i < k, s.slot d i ≠ none) →
      wp (dirlinkLoop dp fuel (k * DIRENTSIZE)) Q E s := by
  intro fuel
  induction fuel with
  | zero =>
    intro k hle hlt
    omega
  | succ fuel ih =>
    intro k hle hlt hbefore
    simp only [dirlinkLoop, wp_bind, wp_deref]
    split
    · next hk =>
      rw [h.lt_slots] at hk
      rw [wp_bind]
      refine h.wp_readEntry hk ?_
      rw [if_neg (fun hr => hr rfl)]
      change wp (if (s.entry d k).inum = 0 then _ else _) Q E s
      split
      · next hfree =>
        rw [(vacant_eq_iff hle).mpr ⟨fun _ => slot_eq_none_iff.mpr hfree, hbefore⟩] at hQ
        exact hQ
      · next hlive =>
        rw [← Nat.succ_mul]
        refine ih (k + 1) hk (by omega) fun i hi => ?_
        rcases Nat.lt_succ_iff_lt_or_eq.mp hi with hi | rfl
        · exact hbefore i hi
        · rw [slot_of_inum_ne hlive]
          simp
    · next hk =>
      rw [h.lt_slots] at hk
      rw [(vacant_eq_iff hle).mpr ⟨fun hlt => absurd hlt hk, hbefore⟩] at hQ
      exact hQ

theorem Fs.Wrote.slot_eq {k : Nat} {src : Bytes} (hw : Wrote s t dp d (k * DIRENTSIZE) DIRENTSIZE src) (l : Nat) :
    t.slot d l = if l = k then (Dirent.ofBytes (src.slice 0 DIRENTSIZE)).slot else s.slot d l := by
  unfold slot
  rw [hw.entry_eq]
  split <;> rfl

/-- What writing a new entry into the first empty slot makes of the table. -/
theorem Fs.Wrote.inserted {name : CString} {n : Nat} (h : s.Listed dp d) (hpos : 0 < n) (hn : n < 2 ^ 16)
    (hw : Wrote s t dp d (vacant (s.slot d) (s.slots d) * DIRENTSIZE) DIRENTSIZE
      ({ inum := UInt16.ofNat n, name := name.bytes } : Dirent).bytes) :
    Inserted (s.slot d) (s.slots d) name.key n (t.slot d) (t.slots d) ∧ t.Aligned d := by
  have hsize := hw.size
  rw [if_pos (by decide), h.aligned.size_eq, ← Nat.succ_mul, Nat.mul_max_mul_right] at hsize
  refine ⟨⟨?_, fun i hi hne => ?_, ?_⟩, ?_⟩
  · rw [hw.slot_eq, if_pos rfl]
    have hinum := Dirent.ofBytes_bytes_inum { inum := UInt16.ofNat n, name := name.bytes }
    have hname := Dirent.ofBytes_bytes_name (UInt16.ofNat n) name
    have hne : UInt16.ofNat n ≠ 0 := by
      intro h0
      have := congrArg UInt16.toNat h0
      rw [UInt16.toNat_ofNat', Nat.mod_eq_of_lt hn] at this
      simp at this
      omega
    unfold Dirent.slot
    rw [hinum, hname, if_neg hne, UInt16.toNat_ofNat', Nat.mod_eq_of_lt hn]
  · rw [hw.slot_eq, if_neg hne]
  · unfold slots
    rw [hsize, Nat.mul_div_cancel _ (by decide)]
    rfl
  · unfold Aligned
    rw [hsize]
    exact Nat.dvd_mul_left _ _

/-- `dirlink` drops what it found, or writes one entry. -/
theorem wp_dirlink {Q : Int → Fs → Prop} {name : CString} {n : Nat} (h : s.Listed dp d) (hpos : 0 < n)
    (hn : n < 2 ^ 16) (hout : E .ballocOutOfBlocks) (hlog : MayLog E s)
    (hfound : ∀ k m, find (s.slot d) (s.slots d) name.key = some k → s.slot d k = some (name.key, m) →
      wp (iget m) (fun ip t => wp (iput ip) (fun _ u => Q (-1) u) E t) E s)
    (hnew : find (s.slot d) (s.slots d) name.key = none → ∀ t, t.Aligned d →
      Inserted (s.slot d) (s.slots d) name.key n (t.slot d) (t.slots d) → Q 0 t) :
    wp (dirlink dp name.bytes n) Q E s := by
  have hd := h.inum
  simp only [dirlink, wp_bind]
  refine wp_dirlookup h (fun hnone => ?_) fun k m hk hslot => ?_
  · have hle := vacant_le (s.slot d) (s.slots d)
    simp only [wp_bind, wp_deref]
    rw [← Nat.zero_mul DIRENTSIZE]
    refine wp_dirlinkLoop h ?_ _ 0 (Nat.zero_le _) ?_ fun i hi => absurd hi (Nat.not_lt_zero i)
    · -- the disk is smaller than the largest file, so the entry fits
      have hfits : vacant (s.slot d) (s.slots d) * DIRENTSIZE + DIRENTSIZE ≤ MAXFILE * BSIZE := by
        have hsolid := (h.dir.ok h.tidy).1.size_le h.tidy.toWf
        have hbig : FSSIZE * BSIZE + DIRENTSIZE ≤ MAXFILE * BSIZE := by decide
        have hmul := Nat.mul_le_mul_right DIRENTSIZE hle
        rw [hd, h.aligned.size_eq] at hsolid
        omega
      have hoff := toNat_ofNat_of_le (Nat.le_trans (Nat.le_add_right _ DIRENTSIZE) hfits)
      have hlen : (UInt32.ofNat DIRENTSIZE).toNat = DIRENTSIZE := rfl
      refine wp_writei_wrote hout h.tidy.toInv h.dir.loaded.caches h.dir.type_ne hlog (fun hbad => ?_) fun _ t hw => ?_
      · rw [hoff, hlen] at hbad
        omega
      · rw [hoff, hlen, hd] at hw
        obtain ⟨hins, hal⟩ := hw.inserted h hpos hn
        rw [if_neg (fun hr => hr rfl)]
        exact hnew hnone t hal hins
    · have : s.slots d ≤ s.slots d * DIRENTSIZE := Nat.le_mul_of_pos_right _ (by decide)
      rw [h.size_eq]
      omega
  · refine (hfound k m hk hslot).post fun ip t hput => ?_
    simp only [wp_bind, wp_pure]
    exact hput

end Link

end Xv6
