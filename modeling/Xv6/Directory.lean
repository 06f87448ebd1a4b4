import Xv6.FileWrite
import Xv6.Lib.SlotMap
import Xv6.Lib.StateFrame

/-!
# Directories are tables of slots

The bytes of a directory as a table of names and inode numbers: two names are the same if
they agree up to a null character or to `DIRSIZ` bytes. What the loops of `dirlookup` and
`dirlink` find, and what the writing of an entry does to the table.
-/

namespace Xv6.Fs

open LittleEndian StateProg SlotMap

/-- The name in a buffer: the characters up to the null character, at most `DIRSIZ` of them. -/
def nameOf (t : Bytes) : List UInt8 := (firstBytes t dirSiz).takeWhile (· ≠ 0)

/-- A directory: the names in use and their inode numbers, by slot. -/
abbrev Dir := SlotMap (List UInt8) ℕ

/-- The slot that the bytes of an entry stand for. -/
def slotOf (de : Bytes) : Option (List UInt8 × ℕ) :=
  if direntInum de = 0 then none else some (nameOf (direntName de), direntInum de)

/-- The directory in the bytes of a file. -/
def slotsOf (c : List UInt8) : Dir :=
  (List.range (c.length / sizeofDirent)).map fun k =>
    slotOf fun j => c.getD (sizeofDirent * k + j) 0

section Names

variable {s t : Bytes} {n : ℕ}

theorem firstBytes_succ (t : Bytes) (n : ℕ) :
    firstBytes t (n + 1) = t 0 :: firstBytes (fun k => t (k + 1)) n := by
  rw [firstBytes, List.range_succ_eq_map, List.map_cons, List.map_map]
  rfl

theorem strncmp_eq_zero_iff (s t : Bytes) (n : ℕ) : strncmp s t n = 0 ↔
    (firstBytes s n).takeWhile (· ≠ 0) = (firstBytes t n).takeWhile (· ≠ 0) := by
  induction n generalizing s t with
  | zero => simp [strncmp, firstBytes]
  | succ n ih =>
    rw [strncmp, firstBytes_succ, firstBytes_succ]
    by_cases hs : s 0 = 0
    · rw [if_neg (by simp [hs]), hs, List.takeWhile_cons_of_neg (by simp)]
      by_cases ht : t 0 = 0
      · simp [ht]
      · rw [List.takeWhile_cons_of_pos (by simpa using ht)]
        have hne : (t 0).toNat ≠ 0 := fun h => ht (UInt8.toNat_inj.mp h)
        simp [hne]
    · rw [List.takeWhile_cons_of_pos (by simpa using hs)]
      by_cases heq : s 0 = t 0
      · rw [if_pos ⟨hs, heq⟩, ← heq, List.takeWhile_cons_of_pos (by simpa using hs), ih,
          List.cons_inj_right]
      · rw [if_neg (by simp [heq])]
        have hne : (s 0).toNat ≠ (t 0).toNat := fun h => heq (UInt8.toNat_inj.mp h)
        have hdiff : ((s 0).toNat : ℤ) - (t 0).toNat ≠ 0 := by omega
        simp only [hdiff, false_iff]
        by_cases ht : t 0 = 0
        · rw [List.takeWhile_cons_of_neg (by simp [ht])]
          simp
        · rw [List.takeWhile_cons_of_pos (by simpa using ht)]
          simp [heq]

/-- Names are the same for `namecmp` if they agree up to a null character or to `DIRSIZ`
bytes. -/
theorem namecmp_eq_zero_iff (s t : Bytes) : namecmp s t = 0 ↔ nameOf s = nameOf t :=
  strncmp_eq_zero_iff s t dirSiz

theorem takeWhile_strncpy (t : Bytes) (n : ℕ) :
    (firstBytes (strncpy t n) n).takeWhile (· ≠ 0) = (firstBytes t n).takeWhile (· ≠ 0) := by
  induction n generalizing t with
  | zero => rfl
  | succ n ih =>
    rw [firstBytes_succ, firstBytes_succ]
    have hhead : strncpy t (n + 1) 0 = t 0 := by simp [strncpy]
    by_cases ht : t 0 = 0
    · rw [hhead, List.takeWhile_cons_of_neg (by simp [ht]),
        List.takeWhile_cons_of_neg (by simp [ht])]
    · have htail : (fun k => strncpy t (n + 1) (k + 1)) = strncpy (fun k => t (k + 1)) n := by
        funext k
        have hiff : (∀ j < k + 1, t j ≠ 0) ↔ ∀ j < k, t (j + 1) ≠ 0 := by
          constructor
          · intro h j hj
            exact h (j + 1) (by omega)
          · intro h j hj
            cases j with
            | zero => exact ht
            | succ j => exact h j (by omega)
        unfold strncpy
        simp only [hiff, Nat.add_lt_add_iff_right]
      rw [hhead, htail, List.takeWhile_cons_of_pos (by simpa using ht),
        List.takeWhile_cons_of_pos (by simpa using ht), ih]

/-- A name that is copied into an entry stays the same name. -/
theorem nameOf_strncpy (t : Bytes) : nameOf (strncpy t dirSiz) = nameOf t :=
  takeWhile_strncpy t dirSiz

/-- A name depends on the first bytes of the buffer only. -/
theorem nameOf_congr (heq : ∀ k < dirSiz, s k = t k) : nameOf s = nameOf t := by
  unfold nameOf firstBytes
  rw [List.map_congr_left fun k hk => heq k (List.mem_range.mp hk)]

end Names

section Slots

variable {de de' : Bytes} {c : List UInt8} {k inum : ℕ}

/-- A slot depends on the bytes of the entry only. -/
theorem slotOf_congr (heq : ∀ j < sizeofDirent, de j = de' j) : slotOf de = slotOf de' := by
  unfold sizeofDirent at heq
  have hinum : direntInum de = direntInum de' :=
    get_congr fun j hj => by simpa using heq j (by omega)
  have hname : nameOf (direntName de) = nameOf (direntName de') := by
    refine nameOf_congr fun j hj => heq (j + 2) ?_
    unfold dirSiz at hj
    omega
  unfold slotOf
  rw [hinum, hname]

/-- An entry that `dirlink` writes. -/
theorem slotOf_dirent (hpos : 0 < inum) (hlt : inum < 65536) (name : Bytes) :
    slotOf (dirent inum (strncpy name dirSiz)) = some (nameOf name, inum) := by
  have hinum : direntInum (dirent inum (strncpy name dirSiz)) = inum := by
    unfold direntInum dirent
    rw [get_copy_of_disjoint (by omega), get_digits]
    omega
  have hname : nameOf (direntName (dirent inum (strncpy name dirSiz))) = nameOf name := by
    rw [← nameOf_strncpy name]
    refine nameOf_congr fun j hj => ?_
    unfold direntName dirent
    rw [copy_of_mem (by omega) (by omega), Nat.add_sub_cancel]
  rw [slotOf, hinum, if_neg (by omega), hname]

/-- The entry of zeros that `sys_unlink` writes. -/
theorem slotOf_zero : slotOf (fun _ => 0) = none := by
  simp [slotOf, direntInum]

@[simp] theorem length_slotsOf (c : List UInt8) : (slotsOf c).length = c.length / sizeofDirent := by
  simp [slotsOf]

theorem getElem?_slotsOf (c : List UInt8) (k : ℕ) : (slotsOf c)[k]? =
    if k < c.length / sizeofDirent then
      some (slotOf fun j => c.getD (sizeofDirent * k + j) 0) else none := by
  rw [slotsOf, List.getElem?_map]
  split_ifs with hk
  · rw [List.getElem?_range hk, Option.map_some]
  · rw [List.getElem?_eq_none (by simpa using hk), Option.map_none]

theorem getD_splice {data : List UInt8} {off m : ℕ} (hoff : off ≤ c.length) :
    (splice c off data).getD m 0 =
      if off ≤ m ∧ m < off + data.length then data.getD (m - off) 0 else c.getD m 0 := by
  simp only [List.getD_eq_getElem?_getD]
  rw [splice, List.append_assoc, List.getElem?_append, List.getElem?_append, List.getElem?_drop,
    List.length_take, Nat.min_eq_left hoff]
  by_cases hlo : m < off
  · rw [if_pos hlo, if_neg (by omega), List.getElem?_take_of_lt hlo]
  · rw [if_neg hlo]
    by_cases hhi : m - off < data.length
    · rw [if_pos hhi, if_pos (by omega)]
    · have hm : off + data.length + (m - off - data.length) = m := by omega
      rw [if_neg hhi, if_neg (by omega), hm]

theorem getD_firstBytes (de : Bytes) {n j : ℕ} (hj : j < n) :
    (firstBytes de n).getD j 0 = de j := by
  rw [List.getD_eq_getElem?_getD, getElem?_firstBytes, if_pos hj, Option.getD_some]

/-- Writing an entry sets the slot at its offset. -/
theorem slotsOf_splice (hdvd : sizeofDirent ∣ c.length) (hk : k ≤ c.length / sizeofDirent)
    (de : Bytes) : slotsOf (splice c (sizeofDirent * k) (firstBytes de sizeofDirent)) =
      put (slotsOf c) k (slotOf de) := by
  obtain ⟨n, hn⟩ := hdvd
  have hoff : sizeofDirent * k ≤ c.length := by
    rw [hn, Nat.mul_div_cancel_left _ (by decide)] at hk
    rw [hn]
    exact Nat.mul_le_mul_left _ hk
  have hlen := length_splice (firstBytes de sizeofDirent) hoff
  rw [length_firstBytes] at hlen
  apply List.ext_getElem?
  intro j
  rw [getElem?_slotsOf, hlen, getElem?_put (by rwa [length_slotsOf]), getElem?_slotsOf]
  simp only [getD_splice hoff, length_firstBytes]
  unfold sizeofDirent at hn hk hoff ⊢
  by_cases hj : j = k
  · subst hj
    rw [if_pos rfl, if_pos (by omega)]
    congr 1
    refine slotOf_congr fun i hi => ?_
    unfold sizeofDirent at hi
    rw [if_pos (by omega), Nat.add_sub_cancel_left, getD_firstBytes de hi]
  · rw [if_neg hj]
    by_cases hlt : j < c.length / 16
    · rw [if_pos hlt, if_pos (by omega)]
      congr 1
      refine slotOf_congr fun i hi => ?_
      unfold sizeofDirent at hi
      rw [if_neg (by omega)]
    · rw [if_neg hlt, if_neg (by omega)]

end Slots

section Loops

variable {L : Layout} {s : State} {file : ℕ → Dinode} {dp : InodePtr} {c : List UInt8}

/-- Reading an entry of a directory. -/
theorem readDirent_run (h : Base L s file) (hip : Live s dp)
    (hdir : (file (s.icache dp).inum).type = tDir)
    (hc : Represents L s file (s.icache dp).inum c) {k : ℕ} (hk : k < c.length / sizeofDirent) :
    ∃ de, readi dp (sizeofDirent * k) sizeofDirent s = .ok ((sizeofDirent, de), s) ∧
      (slotsOf c)[k]? = some (slotOf de) := by
  have hle := hc.length_le
  have hbound : maxFile * bsize < 2 ^ 31 := by decide
  have hend : sizeofDirent * k + sizeofDirent ≤ c.length := by
    unfold sizeofDirent at hk ⊢
    omega
  have hdev : (file (s.icache dp).inum).type ≠ tDev := by
    rw [hdir]
    decide
  have hread := @readi_bytes L s file dp c h hip hdev hc (sizeofDirent * k) sizeofDirent (by decide)
  rw [if_neg (by unfold sizeofDirent at hend ⊢; omega)] at hread
  obtain ⟨de, hrun, hde⟩ := hread
  have hlen : ((c.drop (sizeofDirent * k)).take sizeofDirent).length = sizeofDirent := by
    rw [List.length_take, List.length_drop]
    omega
  rw [hlen] at hrun hde
  refine ⟨de, hrun, ?_⟩
  rw [getElem?_slotsOf, if_pos hk]
  congr 1
  refine slotOf_congr fun j hj => ?_
  rw [← getD_firstBytes de hj, hde, List.getD_eq_getElem?_getD, List.getD_eq_getElem?_getD,
    List.getElem?_take_of_lt hj, List.getElem?_drop]

theorem drop_slotsOf {k : ℕ} {e : Option (List UInt8 × ℕ)} (hslot : (slotsOf c)[k]? = some e) :
    (slotsOf c).drop k = e :: (slotsOf c).drop (k + 1) := by
  obtain ⟨hlt, he⟩ := List.getElem?_eq_some_iff.mp hslot
  rw [List.drop_eq_getElem_cons hlt, he]

/-- The offsets in a directory. -/
theorem direntOffsets_eq (hdvd : sizeofDirent ∣ c.length) : direntOffsets c.length =
    (List.range' 0 (c.length / sizeofDirent)).map (sizeofDirent * ·) := by
  obtain ⟨n, hn⟩ := hdvd
  have hcount : (c.length + (sizeofDirent - 1)) / sizeofDirent = c.length / sizeofDirent := by
    unfold sizeofDirent at *
    omega
  rw [direntOffsets, hcount, List.range_eq_range']

/-- The loop of `dirlookup` finds the first slot with the name. -/
theorem dirlookupLoop_run (h : Base L s file) (hip : Live s dp)
    (hdir : (file (s.icache dp).inum).type = tDir)
    (hc : Represents L s file (s.icache dp).inum c) (name : Bytes) {k m : ℕ}
    (hm : k + m = c.length / sizeofDirent) :
    wp (dirlookupLoop dp name ((List.range' k m).map (sizeofDirent * ·)))
      (fun r s' => s' = s ∧ r = (find (nameOf name) ((slotsOf c).drop k)).map fun r =>
        (r.1, sizeofDirent * (k + r.2))) (fun _ => False) s := by
  induction m generalizing k with
  | zero =>
    have hend : (slotsOf c).drop k = [] := by
      rw [List.drop_eq_nil_iff, length_slotsOf]
      omega
    rw [hend]
    exact ⟨rfl, rfl⟩
  | succ m ih =>
    obtain ⟨de, hrun, hslot⟩ := readDirent_run h hip hdir hc (k := k) (by omega)
    rw [List.range'_succ, List.map_cons, dirlookupLoop, wp_bind]
    apply wp_of_ok hrun
    have hnext (hmiss : find (nameOf name) ((slotsOf c).drop k) =
        (find (nameOf name) ((slotsOf c).drop (k + 1))).map fun r => (r.1, r.2 + 1)) :
        wp (dirlookupLoop dp name ((List.range' (k + 1) m).map (sizeofDirent * ·)))
          (fun r s' => s' = s ∧ r = (find (nameOf name) ((slotsOf c).drop k)).map fun r =>
            (r.1, sizeofDirent * (k + r.2))) (fun _ => False) s := by
      refine wp_mono (ih (k := k + 1) (by omega)) ?_
      rintro r s' ⟨hs', rfl⟩
      refine ⟨hs', ?_⟩
      rw [hmiss, Option.map_map]
      congr 1
      funext r
      simp only [Function.comp, Prod.mk.injEq, true_and]
      congr 1
      omega
    have hdrop := drop_slotsOf hslot
    simp only [wp_bind, wp_panicIf]
    refine ⟨fun hne => hne rfl, fun _ => ?_⟩
    by_cases hused : direntInum de = 0
    · rw [slotOf, if_pos hused] at hdrop
      rw [if_neg (by simp [hused])]
      exact hnext (by rw [hdrop, find_none_cons])
    · rw [slotOf, if_neg hused] at hdrop
      by_cases hname : namecmp name (direntName de) = 0
      · rw [if_pos ⟨hused, hname⟩, wp_pure, hdrop, find_some_cons,
          if_pos ((namecmp_eq_zero_iff _ _).mp hname).symm]
        exact ⟨rfl, rfl⟩
      · rw [if_neg (by simp [hname])]
        refine hnext ?_
        rw [hdrop, find_some_cons, if_neg]
        exact fun heq => hname ((namecmp_eq_zero_iff _ _).mpr heq.symm)

theorem firstFree_cons (e : Option (List UInt8 × ℕ)) (d : Dir) :
    firstFree (e :: d) = if e.isNone then 0 else firstFree d + 1 := by
  rw [firstFree, List.findIdx_cons]
  cases e <;> rfl

/-- The loop of `dirlink` finds the first empty slot. -/
theorem dirlinkFind_run (h : Base L s file) (hip : Live s dp)
    (hdir : (file (s.icache dp).inum).type = tDir)
    (hc : Represents L s file (s.icache dp).inum c) {k m : ℕ}
    (hm : k + m = c.length / sizeofDirent) :
    wp (dirlinkFind dp (sizeofDirent * (k + m)) ((List.range' k m).map (sizeofDirent * ·)))
      (fun off s' => s' = s ∧ off = sizeofDirent * (k + firstFree ((slotsOf c).drop k)))
      (fun _ => False) s := by
  induction m generalizing k with
  | zero =>
    have hend : (slotsOf c).drop k = [] := by
      rw [List.drop_eq_nil_iff, length_slotsOf]
      omega
    rw [hend]
    exact ⟨rfl, rfl⟩
  | succ m ih =>
    obtain ⟨de, hrun, hslot⟩ := readDirent_run h hip hdir hc (k := k) (by omega)
    rw [List.range'_succ, List.map_cons, dirlinkFind, wp_bind]
    apply wp_of_ok hrun
    have hdrop := drop_slotsOf hslot
    simp only [wp_bind, wp_panicIf]
    refine ⟨fun hne => hne rfl, fun _ => ?_⟩
    rw [hdrop, firstFree_cons, slotOf]
    by_cases hused : direntInum de = 0
    · rw [if_pos hused, if_pos hused, wp_pure]
      exact ⟨rfl, rfl⟩
    · rw [if_neg hused, if_neg hused]
      have hlast : k + (m + 1) = k + 1 + m := by omega
      rw [hlast]
      refine wp_mono (ih (k := k + 1) (by omega)) ?_
      rintro off s' ⟨hs', rfl⟩
      refine ⟨hs', ?_⟩
      simp only [Option.isNone_some, Bool.false_eq_true, if_false]
      congr 1
      omega

end Loops

end Xv6.Fs
