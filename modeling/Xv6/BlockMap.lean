import Xv6.Inode
import Xv6.Lib.OneOwner

/-!
# The map of the blocks

A valid layout separates the superblock, the inodes, the free map and the data blocks, so
that a disk is seen as three tables: the bits of the free map, the inodes and the data
blocks. Every change that the code makes to a block changes one entry of one table. The
block addresses of all inodes, direct, indirect and in indirect blocks, are one function.
-/

namespace Xv6.Fs

open LittleEndian

/-- A superblock with the numbers of a disk whose parts do not overlap. -/
structure Layout where
  /-- The superblock. -/
  sb : Superblock
  /-- The inode numbers in use are below this one. -/
  nino : ℕ
  /-- The inode blocks lie behind the superblock. -/
  one_lt_inodestart : 1 < sb.inodestart
  /-- The free map lies behind the inode blocks. -/
  inodestart_le : sb.inodestart ≤ sb.bmapstart
  /-- `ialloc` hands out inode numbers in use. -/
  ninodes_le : sb.ninodes ≤ nino
  /-- The inodes in use fit the inode blocks. -/
  nino_le : nino ≤ (sb.bmapstart - sb.inodestart) * ipb
  /-- The data blocks lie behind the free map. -/
  freeMap_lt : (sb.size - 1) / bpb + sb.bmapstart < sb.size - sb.nblocks
  /-- Block numbers are of type `uint`. -/
  size_lt : sb.size < 2 ^ 32

/-- The tables of a disk. -/
@[ext] structure View where
  /-- The bits of the free map. -/
  bit : ℕ → Bool
  /-- The inodes. -/
  dinode : ℕ → Dinode
  /-- The data blocks. -/
  block : ℕ → Bytes

namespace Layout

variable (L : Layout)

/-- The first data block; the blocks before it are metadata. -/
def dataStart : ℕ := L.sb.size - L.sb.nblocks

/-- Block numbers of data blocks. -/
def IsData (b : ℕ) : Prop := L.dataStart ≤ b ∧ b < L.sb.size

instance (b : ℕ) : Decidable (L.IsData b) := inferInstanceAs (Decidable (_ ∧ _))

/-- Inode numbers in use. -/
def InTable (i : ℕ) : Prop := 0 < i ∧ i < L.nino

instance (i : ℕ) : Decidable (L.InTable i) := inferInstanceAs (Decidable (_ ∧ _))

/-- The tables of a disk; entries that do not exist are empty. -/
def view (disk : Disk) : View where
  bit b := decide (b < L.sb.size) && bitSet (disk (L.sb.bblock b)) (b % bpb)
  dinode i :=
    if L.InTable i then getDinode (disk (L.sb.iblock i)) (i % ipb * sizeofDinode)
    else Dinode.zero
  block b := if L.IsData b then disk b else fun _ => 0

/-- There are blocks in front of the data blocks. -/
theorem dataStart_pos : 0 < L.dataStart := by
  have hlast := L.freeMap_lt
  unfold bpb at hlast
  unfold dataStart
  omega

/-- Block 0 is not a data block, so a zero in an inode means that there is none. -/
theorem not_isData_zero : ¬ L.IsData 0 := by
  have := L.dataStart_pos
  unfold IsData
  omega

variable {L}

/-- The blocks of the inode table lie behind the super block and in front of the bitmap. -/
theorem iblock_bounds {i : ℕ} (hi : L.InTable i) :
    1 < L.sb.iblock i ∧ L.sb.inodestart ≤ L.sb.iblock i ∧ L.sb.iblock i < L.sb.bmapstart := by
  have hstart := L.one_lt_inodestart
  have hlt : i / ipb < L.sb.bmapstart - L.sb.inodestart :=
    Nat.div_lt_of_lt_mul (by have := L.nino_le; have := hi.2; rw [Nat.mul_comm]; omega)
  unfold Superblock.iblock
  unfold ipb at hlt ⊢
  omega

/-- The blocks of the bitmap lie between the inode table and the data blocks. -/
theorem bblock_bounds {b : ℕ} (hb : b < L.sb.size) :
    1 < L.sb.bblock b ∧ L.sb.bmapstart ≤ L.sb.bblock b ∧ L.sb.bblock b < L.dataStart := by
  have hstart := L.one_lt_inodestart
  have hmap := L.inodestart_le
  have hlast := L.freeMap_lt
  have hle : b / bpb ≤ (L.sb.size - 1) / bpb := Nat.div_le_div_right (by omega)
  unfold Superblock.bblock dataStart
  unfold bpb at hlast hle ⊢
  omega

/-- Data blocks lie behind the super block. -/
theorem one_lt_of_isData {b : ℕ} (hb : L.IsData b) : 1 < b := by
  have h := bblock_bounds hb.2
  have := hb.1
  omega

/-- The number of a data block fits into a word. -/
theorem isData_lt {b : ℕ} (hb : L.IsData b) : b < 2 ^ 32 := lt_trans hb.2 L.size_lt

/-- The abstract disk shows data blocks as they are. -/
theorem view_block_of_isData (disk : Disk) {b : ℕ} (hb : L.IsData b) :
    (L.view disk).block b = disk b := if_pos hb

/-- A change of one bit of a block of the free map. -/
theorem view_bitmap {disk : Disk} {b : ℕ} (hb : b < L.sb.size) {data : Bytes} {v : Bool}
    (hdata : ∀ bi, bitSet data bi =
      if bi = b % bpb then v else bitSet (disk (L.sb.bblock b)) bi) :
    L.view (Function.update disk (L.sb.bblock b) data) =
      { L.view disk with bit := Function.update (L.view disk).bit b v } := by
  have hbounds := bblock_bounds hb
  ext1
  · funext b'
    simp only [view]
    by_cases hb' : b' < L.sb.size
    · by_cases hblock : L.sb.bblock b' = L.sb.bblock b
      · rw [hblock, Function.update_self, hdata]
        have hquot : b' / bpb = b / bpb := by unfold Superblock.bblock at hblock; omega
        by_cases hbb : b' = b
        · subst hbb
          simp [hb]
        · have hrem : b' % bpb ≠ b % bpb := by
            intro hrem
            exact hbb (by rw [← Nat.div_add_mod b' bpb, hquot, hrem, Nat.div_add_mod])
          rw [if_neg hrem, Function.update_of_ne hbb, ← hblock]
      · have hbb : b' ≠ b := by rintro rfl; exact hblock rfl
        rw [Function.update_of_ne hblock, Function.update_of_ne hbb]
    · have hbb : b' ≠ b := by rintro rfl; exact hb' hb
      simp [hb', hbb]
  · funext i
    simp only [view]
    split_ifs with hi
    · have := iblock_bounds hi
      rw [Function.update_of_ne (by omega)]
    · rfl
  · funext b'
    simp only [view]
    split_ifs with hb'
    · rw [Function.update_of_ne (by have := hb'.1; omega)]
    · rfl

/-- A change of an inode in its inode block. -/
theorem view_putDinode {disk : Disk} {i : ℕ} (hi : L.InTable i) (din : Dinode) :
    L.view (Function.update disk (L.sb.iblock i)
        (putDinode (disk (L.sb.iblock i)) (i % ipb * sizeofDinode) din)) =
      { L.view disk with dinode := Function.update (L.view disk).dinode i din } := by
  have hbounds := iblock_bounds hi
  ext1
  · funext b
    simp only [view]
    by_cases hb : b < L.sb.size
    · have := bblock_bounds hb
      rw [Function.update_of_ne (by omega)]
    · simp [hb]
  · funext i'
    simp only [view]
    by_cases hii : i' = i
    · subst hii
      rw [if_pos hi, Function.update_self, Function.update_self, getDinode_putDinode_self]
    · rw [Function.update_of_ne hii]
      split_ifs with hi'
      · by_cases hblock : L.sb.iblock i' = L.sb.iblock i
        · rw [hblock, Function.update_self]
          have hquot : i' / ipb = i / ipb := by unfold Superblock.iblock at hblock; omega
          have hrem : i' % ipb ≠ i % ipb := by
            intro hrem
            exact hii (by rw [← Nat.div_add_mod i' ipb, hquot, hrem, Nat.div_add_mod])
          apply getDinode_putDinode_of_disjoint
          unfold sizeofDinode
          omega
        · rw [Function.update_of_ne hblock]
      · rfl
  · funext b'
    simp only [view]
    split_ifs with hb'
    · have := bblock_bounds hb'.2
      have := hb'.1
      rw [Function.update_of_ne (by omega)]
    · rfl

/-- A change of a data block. -/
theorem view_block {disk : Disk} {b : ℕ} (hb : L.IsData b) (data : Bytes) :
    L.view (Function.update disk b data) =
      { L.view disk with block := Function.update (L.view disk).block b data } := by
  ext1
  · funext b'
    simp only [view]
    by_cases hb' : b' < L.sb.size
    · have := bblock_bounds hb'
      have := hb.1
      rw [Function.update_of_ne (by omega)]
    · simp [hb']
  · funext i
    simp only [view]
    split_ifs with hi
    · have := iblock_bounds hi
      have := bblock_bounds hb.2
      have := hb.1
      rw [Function.update_of_ne (by omega)]
    · rfl
  · funext b'
    simp only [view]
    by_cases hbb : b' = b
    · subst hbb
      rw [if_pos hb, Function.update_self, Function.update_self]
    · rw [Function.update_of_ne hbb, Function.update_of_ne hbb]

end Layout

/-- The places where an inode holds block addresses: its own addresses and the entries of its
indirect block. -/
inductive Slot
  | addr (k : Fin (ndirect + 1))
  | entry (j : Fin nindirect)
deriving DecidableEq

/-- The place that holds the address of a block of the file. -/
def Slot.ofIndex (bn : ℕ) (hbn : bn < maxFile) : Slot :=
  if hdirect : bn < ndirect then .addr ⟨bn, Nat.lt_succ_of_lt hdirect⟩
  else .entry ⟨bn - ndirect, by unfold maxFile at hbn; omega⟩

/-- Different blocks of a file have different places in the inode. -/
theorem Slot.ofIndex_inj {bn bn' : ℕ} (hbn : bn < maxFile) (hbn' : bn' < maxFile)
    (heq : Slot.ofIndex bn hbn = Slot.ofIndex bn' hbn') : bn = bn' := by
  unfold Slot.ofIndex at heq
  split_ifs at heq with h h'
  · simpa using heq
  · simp only [Slot.entry.injEq, Fin.mk.injEq] at heq
    omega

/-- The place of the indirect block is not that of a block of the file. -/
theorem Slot.ofIndex_ne_last (bn : ℕ) (hbn : bn < maxFile) :
    Slot.ofIndex bn hbn ≠ .addr (Fin.last ndirect) := by
  unfold Slot.ofIndex
  split_ifs with h
  · intro heq
    have hval := congrArg Fin.val (Slot.addr.inj heq)
    simp only [Fin.val_last] at hval
    omega
  · simp

/-- The block address at a place of an inode. -/
def slotAddr (block : ℕ → Bytes) (din : Dinode) : Slot → ℕ
  | .addr k => din.addr k
  | .entry j =>
    if din.addr (Fin.last ndirect) = 0 then 0
    else word (block (din.addr (Fin.last ndirect))) j

/-- The block addresses of all allocated inodes. -/
def addrMap (file : ℕ → Dinode) (block : ℕ → Bytes) (p : ℕ × Slot) : ℕ :=
  if (file p.1).type = 0 then 0 else slotAddr block (file p.1) p.2

/-- The address of a block of a file, or 0. -/
def fileBlock (file : ℕ → Dinode) (block : ℕ → Bytes) (i bn : ℕ) : ℕ :=
  if hbn : bn < maxFile then addrMap file block (i, Slot.ofIndex bn hbn) else 0

namespace Dinode

variable {din : Dinode} {k k' : Fin (ndirect + 1)} {b : ℕ}

/-- Reading an address of an inode that has been set. -/
theorem addr_setAddr_self (hb : b < 2 ^ 32) : (din.setAddr k b).addr k = b := by
  simp only [addr, setAddr, Function.update_self]
  exact UInt32.toNat_ofNat_of_lt' hb

/-- Setting an address of an inode leaves the others alone. -/
theorem addr_setAddr_of_ne (hne : k' ≠ k) : (din.setAddr k b).addr k' = din.addr k' := by
  simp only [addr, setAddr, Function.update_of_ne hne]

@[simp] theorem type_setAddr : (din.setAddr k b).type = din.type := rfl

@[simp] theorem size_setAddr : (din.setAddr k b).size = din.size := rfl

@[simp] theorem nlink_setAddr : (din.setAddr k b).nlink = din.nlink := rfl

end Dinode

/-- The places of an inode depend on its addresses only. -/
theorem slotAddr_congr {block : ℕ → Bytes} {din din' : Dinode} (haddrs : din'.addrs = din.addrs)
    (p : Slot) : slotAddr block din' p = slotAddr block din p := by
  have haddr (k : Fin (ndirect + 1)) : din'.addr k = din.addr k := by
    unfold Dinode.addr
    rw [haddrs]
  cases p with
  | addr k => exact haddr k
  | entry j => simp only [slotAddr, haddr]

section AddrMap

variable {L : Layout} {file : ℕ → Dinode} {block : ℕ → Bytes} {bit : ℕ → Bool} {i b : ℕ}

/-- A free inode has no blocks. -/
theorem addrMap_of_type_eq_zero {p : Slot} (htype : (file i).type = 0) :
    addrMap file block (i, p) = 0 := by
  simp [addrMap, htype]

/-- The addresses in an inode. -/
theorem addrMap_addr (block : ℕ → Bytes) (htype : (file i).type ≠ 0)
    (k : Fin (ndirect + 1)) :
    addrMap file block (i, .addr k) = (file i).addr k := by
  simp [addrMap, htype, slotAddr]

/-- The addresses in the indirect block. -/
theorem addrMap_entry (htype : (file i).type ≠ 0)
    (hind : (file i).addr (Fin.last ndirect) ≠ 0) (j : Fin nindirect) :
    addrMap file block (i, .entry j) =
      word (block ((file i).addr (Fin.last ndirect))) j := by
  simp [addrMap, htype, slotAddr, hind]

/-- A change of one inode changes the addresses of this inode only. -/
theorem addrMap_update_of_ne {din : Dinode} {p : ℕ × Slot} (hne : p.1 ≠ i) :
    addrMap (Function.update file i din) block p = addrMap file block p := by
  simp [addrMap, Function.update_of_ne hne]

/-- The places of an inode that is replaced. -/
theorem addrMap_update_self (din : Dinode) (p : Slot) :
    addrMap (Function.update file i din) block (i, p) =
      if din.type = 0 then 0 else slotAddr block din p := by
  simp [addrMap]

/-- The write of a block other than the indirect block changes no address. -/
theorem slotAddr_write_of_ne {data : Bytes} {din : Dinode}
    (hne : din.addr (Fin.last ndirect) ≠ b) (p : Slot) :
    slotAddr (Function.update block b data) din p = slotAddr block din p := by
  cases p with
  | addr k => rfl
  | entry j =>
    simp only [slotAddr]
    rw [Function.update_of_ne hne]

/-- The assignment of a new, zeroed block to an address of an inode. -/
theorem addrMap_setAddr (hown : OneOwner (addrMap file block) bit L.IsData)
    (htype : (file i).type ≠ 0) {k : Fin (ndirect + 1)} (hnone : (file i).addr k = 0)
    (hdata : L.IsData b) (hfree : bit b = false) :
    addrMap (Function.update file i ((file i).setAddr k b))
        (Function.update block b fun _ => 0) =
      Function.update (addrMap file block) (i, .addr k) b := by
  have hb := Layout.isData_lt hdata
  have hb0 := hown.ne_zero hdata
  have hother (i' : ℕ) (htype' : (file i').type ≠ 0) (k' : Fin (ndirect + 1)) :
      (file i').addr k' ≠ b := by
    rw [← addrMap_addr block htype']
    exact hown.ne_of_free hdata hfree _
  funext p
  obtain ⟨i', p⟩ := p
  by_cases hii : i' = i
  · subst hii
    rw [addrMap_update_self, Dinode.type_setAddr, if_neg htype]
    cases p with
    | addr k' =>
      by_cases hkk : k' = k
      · subst hkk
        rw [Function.update_self]
        exact Dinode.addr_setAddr_self hb
      · rw [Function.update_of_ne (by simpa using hkk), addrMap_addr _ htype]
        exact Dinode.addr_setAddr_of_ne hkk
    | entry j =>
      rw [Function.update_of_ne (by simp)]
      by_cases hlast : Fin.last ndirect = k
      · have hnew : ((file i').setAddr k b).addr (Fin.last ndirect) = b := by
          rw [hlast]
          exact Dinode.addr_setAddr_self hb
        have hold : (file i').addr (Fin.last ndirect) = 0 := by rw [hlast, hnone]
        simp [slotAddr, hnew, addrMap, htype, hold]
      · have hsame : ((file i').setAddr k b).addr (Fin.last ndirect) =
            (file i').addr (Fin.last ndirect) := Dinode.addr_setAddr_of_ne hlast
        rw [slotAddr_write_of_ne (by rw [hsame]; exact hother i' htype _)]
        simp only [slotAddr, addrMap, if_neg htype, hsame]
  · rw [addrMap_update_of_ne hii, Function.update_of_ne (by simp [hii])]
    unfold addrMap
    split_ifs with htype'
    · rfl
    · exact slotAddr_write_of_ne (hother i' htype' _) p

/-- The assignment of a new, zeroed block to an entry of an indirect block. -/
theorem addrMap_setWord (hown : OneOwner (addrMap file block) bit L.IsData)
    (htype : (file i).type ≠ 0) (hind : (file i).addr (Fin.last ndirect) ≠ 0)
    {j : Fin nindirect} (hdata : L.IsData b) (hfree : bit b = false) :
    addrMap file (Function.update (Function.update block b fun _ => 0)
        ((file i).addr (Fin.last ndirect))
        (setWord (block ((file i).addr (Fin.last ndirect))) j b)) =
      Function.update (addrMap file block) (i, .entry j) b := by
  have hb := Layout.isData_lt hdata
  have hother (i' : ℕ) (htype' : (file i').type ≠ 0) (k' : Fin (ndirect + 1)) :
      (file i').addr k' ≠ b := by
    rw [← addrMap_addr block htype']
    exact hown.ne_of_free hdata hfree _
  funext p
  obtain ⟨i', p⟩ := p
  by_cases htype' : (file i').type = 0
  · have hii : i' ≠ i := by rintro rfl; exact htype htype'
    rw [addrMap_of_type_eq_zero htype', Function.update_of_ne (by simp [hii]),
      addrMap_of_type_eq_zero htype']
  cases p with
  | addr k =>
    rw [Function.update_of_ne (by simp), addrMap_addr _ htype', addrMap_addr _ htype']
  | entry j' =>
    by_cases hzero : (file i').addr (Fin.last ndirect) = 0
    · have hii : i' ≠ i := by rintro rfl; exact hind hzero
      rw [Function.update_of_ne (by simp [hii])]
      simp [addrMap, slotAddr, hzero]
    · rw [addrMap_entry htype' hzero]
      by_cases hii : i' = i
      · subst hii
        rw [Function.update_self]
        by_cases hjj : j' = j
        · subst hjj
          rw [Function.update_self]
          exact word_setWord_self _ _ hb
        · rw [Function.update_of_ne (by simpa using hjj), addrMap_entry htype' hzero]
          exact word_setWord_of_ne (by simpa [Fin.ext_iff] using hjj)
      · have hne : (file i').addr (Fin.last ndirect) ≠ (file i).addr (Fin.last ndirect) := by
          intro heq
          rw [← addrMap_addr block htype', ← addrMap_addr block htype]
            at heq
          have hkey := hown.inj _ _ heq (by rwa [addrMap_addr _ htype'])
          exact hii (congrArg Prod.fst hkey)
        rw [Function.update_of_ne hne, Function.update_of_ne (hother i' htype' _),
          Function.update_of_ne (by simp [hii]), addrMap_entry htype' hzero]

/-- The write of a block that an inode holds, other than its indirect block, changes no
address of any inode. -/
theorem addrMap_write (hown : OneOwner (addrMap file block) bit L.IsData) {p : Slot}
    (hp : p ≠ .addr (Fin.last ndirect)) (haddr : addrMap file block (i, p) = b) (hb : b ≠ 0)
    (data : Bytes) :
    addrMap file (Function.update block b data) = addrMap file block := by
  funext q
  obtain ⟨i', q⟩ := q
  unfold addrMap
  split_ifs with htype
  · rfl
  · refine slotAddr_write_of_ne (fun heq => ?_) q
    have hkey := hown.inj (i', .addr (Fin.last ndirect)) (i, p)
      (by rw [addrMap_addr block htype, heq, haddr])
      (by rw [addrMap_addr block htype, heq]; exact hb)
    exact hp (congrArg Prod.snd hkey).symm

/-- The clearing of an address, if the indirect block is cleared only without entries. -/
theorem slotAddr_setAddr_zero {din : Dinode} {k : Fin (ndirect + 1)} {p : Slot}
    (hp : p ≠ .addr k) (hlast : k = Fin.last ndirect → ∀ j, p ≠ .entry j) :
    slotAddr block (din.setAddr k 0) p = slotAddr block din p := by
  cases p with
  | addr k' => exact Dinode.addr_setAddr_of_ne (by simpa using hp)
  | entry j =>
    have hne : Fin.last ndirect ≠ k := fun heq => hlast heq.symm j rfl
    simp only [slotAddr, Dinode.addr_setAddr_of_ne hne]

end AddrMap

end Xv6.Fs
