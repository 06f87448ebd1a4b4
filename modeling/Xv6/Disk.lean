import Xv6.Lib.LittleEndian
import Xv6.Param

/-!
# The format of the disk

The structures of `fs.h` and where they lie: the superblock in block 1, eight inodes to a
block from `inodestart` on, one bit for every block from `bmapstart` on. A disk is an array
of blocks and a block an array of bytes; the fields are read from and written to the bytes.
-/

namespace Xv6.Fs

open LittleEndian

/-- `ROOTINO`: the inode number of the root directory. -/
def rootIno : ℕ := 1

/-- `BSIZE`: the size of a block in bytes. -/
def bsize : ℕ := 512

/-- `NDIRECT`: the direct block addresses of an inode. -/
def ndirect : ℕ := 12

/-- `NINDIRECT`: the block addresses in an indirect block. -/
def nindirect : ℕ := 128

/-- `MAXFILE`: the most blocks of a file. -/
def maxFile : ℕ := ndirect + nindirect

/-- `sizeof(struct dinode)`. -/
def sizeofDinode : ℕ := 64

/-- `IPB`: the inodes in a block. -/
def ipb : ℕ := 8

/-- `BPB`: the bits of the free map in a block. -/
def bpb : ℕ := 4096

/-- `DIRSIZ`: the bytes of a name. -/
def dirSiz : ℕ := 14

/-- `sizeof(struct dirent)`. -/
def sizeofDirent : ℕ := 16

/-- `NINODE`: the entries of the inode cache. -/
def ninode : ℕ := 50

/-- `NDEV`: the major device numbers. -/
def ndev : ℕ := 10

/-- `T_DIR`. -/
def tDir : Int16 := 1

/-- `T_FILE`. -/
def tFile : Int16 := 2

/-- `T_DEV`. -/
def tDev : Int16 := 3

/-- The bytes of a block or of a buffer. -/
abbrev Bytes := ℕ → UInt8

/-- The blocks as they read, whether the buffer cache, the log or the disk holds them. -/
abbrev Disk := ℕ → Bytes

/-- `struct superblock`. -/
structure Superblock where
  /-- Size of the file system image, in blocks. -/
  size : ℕ
  /-- Number of data blocks. -/
  nblocks : ℕ
  /-- Number of inodes. -/
  ninodes : ℕ
  /-- Number of log blocks. -/
  nlog : ℕ
  /-- Block number of the first log block. -/
  logstart : ℕ
  /-- Block number of the first inode block. -/
  inodestart : ℕ
  /-- Block number of the first free map block. -/
  bmapstart : ℕ
deriving DecidableEq

/-- The superblock that a buffer holds. -/
def getSuperblock (data : Bytes) : Superblock where
  size := get data 0 4
  nblocks := get data 4 4
  ninodes := get data 8 4
  nlog := get data 12 4
  logstart := get data 16 4
  inodestart := get data 20 4
  bmapstart := get data 24 4

/-- `IBLOCK`: the block containing an inode. -/
def Superblock.iblock (sb : Superblock) (inum : ℕ) : ℕ := inum / ipb + sb.inodestart

/-- `BBLOCK`: the block of the free map containing the bit of a block. -/
def Superblock.bblock (sb : Superblock) (b : ℕ) : ℕ := b / bpb + sb.bmapstart

/-- `struct dinode`. -/
@[ext] structure Dinode where
  /-- File type. -/
  type : Int16
  /-- Major device number (`T_DEV` only). -/
  major : Int16
  /-- Minor device number (`T_DEV` only). -/
  minor : Int16
  /-- Number of links to the inode in the file system. -/
  nlink : Int16
  /-- Size of the file in bytes. -/
  size : UInt32
  /-- Data block addresses, the last one that of the indirect block. -/
  addrs : Fin (ndirect + 1) → UInt32

namespace Dinode

/-- An inode of zeros. -/
def zero : Dinode := ⟨0, 0, 0, 0, 0, fun _ => 0⟩

/-- A block address as a block number. -/
def addr (din : Dinode) (k : Fin (ndirect + 1)) : ℕ := (din.addrs k).toNat

/-- The assignment of a block number to an address. -/
def setAddr (din : Dinode) (k : Fin (ndirect + 1)) (b : ℕ) : Dinode :=
  { din with addrs := Function.update din.addrs k (UInt32.ofNat b) }

/-- The bytes of an inode on the disk. -/
def bytes (din : Dinode) : Bytes := fun k =>
  if k < 2 then digits din.type.toUInt16.toNat k
  else if k < 4 then digits din.major.toUInt16.toNat (k - 2)
  else if k < 6 then digits din.minor.toUInt16.toNat (k - 4)
  else if k < 8 then digits din.nlink.toUInt16.toNat (k - 6)
  else if k < 12 then digits din.size.toNat (k - 8)
  else digits (din.addrs (Fin.ofNat _ ((k - 12) / 4))).toNat ((k - 12) % 4)

end Dinode

/-- The inode at an offset of a buffer. -/
def getDinode (data : Bytes) (off : ℕ) : Dinode where
  type := (UInt16.ofNat (get data off 2)).toInt16
  major := (UInt16.ofNat (get data (off + 2) 2)).toInt16
  minor := (UInt16.ofNat (get data (off + 4) 2)).toInt16
  nlink := (UInt16.ofNat (get data (off + 6) 2)).toInt16
  size := UInt32.ofNat (get data (off + 8) 4)
  addrs k := UInt32.ofNat (get data (off + 12 + 4 * k) 4)

/-- A buffer after an inode has been stored at an offset. -/
def putDinode (data : Bytes) (off : ℕ) (din : Dinode) : Bytes :=
  copy data off sizeofDinode din.bytes

/-- The bit of the free map in a buffer: `data[bi/8] & m`. -/
def bitSet (data : Bytes) (bi : ℕ) : Bool :=
  data (bi / 8) &&& (1 <<< UInt8.ofNat (bi % 8)) != 0

/-- `data[bi/8] |= m`. -/
def setBit (data : Bytes) (bi : ℕ) : Bytes :=
  Function.update data (bi / 8) (data (bi / 8) ||| (1 <<< UInt8.ofNat (bi % 8)))

/-- `data[bi/8] &= ~m`. -/
def clearBit (data : Bytes) (bi : ℕ) : Bytes :=
  Function.update data (bi / 8) (data (bi / 8) &&& ~~~(1 <<< UInt8.ofNat (bi % 8)))

/-- The word of an indirect block: `a[j]`. -/
def word (data : Bytes) (j : ℕ) : ℕ := get data (4 * j) 4

/-- `a[j] = x`. -/
def setWord (data : Bytes) (j x : ℕ) : Bytes := put data (4 * j) 4 x

/-- `strncmp`, whose result is the difference of the first characters that differ. -/
def strncmp (p q : Bytes) : ℕ → ℤ
  | 0 => 0
  | n + 1 =>
    if p 0 ≠ 0 ∧ p 0 = q 0 then strncmp (fun k => p (k + 1)) (fun k => q (k + 1)) n
    else (p 0).toNat - (q 0).toNat

/-- `strncpy` into a buffer: the characters up to the null character, then null characters. -/
def strncpy (t : Bytes) (n : ℕ) : Bytes := fun k =>
  if k < n ∧ ∀ j < k, t j ≠ 0 then t k else 0

/-- `namecmp`. -/
def namecmp (s t : Bytes) : ℤ := strncmp s t dirSiz

/-- `struct dirent` as its bytes: an inode number and a name. -/
def dirent (inum : ℕ) (name : Bytes) : Bytes :=
  copy (digits inum) 2 dirSiz name

/-- `de.inum`. -/
def direntInum (de : Bytes) : ℕ := get de 0 2

/-- `de.name`. -/
def direntName (de : Bytes) : Bytes := fun k => de (k + 2)

section Fields

variable {data : Bytes} {off : ℕ}

/-- Bytes of an inode that are the digits of a field give the field back. -/
theorem get_bytes_field (din : Dinode) (start n x : ℕ)
    (hbytes : ∀ k < n, din.bytes (start + k) = digits x k) :
    get din.bytes start n = x % 256 ^ n := by
  rw [← get_digits x n]
  apply get_congr
  intro k hk
  rw [hbytes k hk, Nat.zero_add]

/-- The bytes of an inode hold the inode. -/
theorem getDinode_bytes (din : Dinode) : getDinode din.bytes 0 = din := by
  have htype := get_bytes_field din 0 2 din.type.toUInt16.toNat (fun k hk => by
    rw [Dinode.bytes, if_pos (by omega), Nat.zero_add])
  have hmajor := get_bytes_field din 2 2 din.major.toUInt16.toNat (fun k hk => by
    rw [Dinode.bytes, if_neg (by omega), if_pos (by omega), Nat.add_sub_cancel_left])
  have hminor := get_bytes_field din 4 2 din.minor.toUInt16.toNat (fun k hk => by
    rw [Dinode.bytes, if_neg (by omega), if_neg (by omega), if_pos (by omega),
      Nat.add_sub_cancel_left])
  have hnlink := get_bytes_field din 6 2 din.nlink.toUInt16.toNat (fun k hk => by
    rw [Dinode.bytes, if_neg (by omega), if_neg (by omega), if_neg (by omega),
      if_pos (by omega), Nat.add_sub_cancel_left])
  have hsize := get_bytes_field din 8 4 din.size.toNat (fun k hk => by
    rw [Dinode.bytes, if_neg (by omega), if_neg (by omega), if_neg (by omega),
      if_neg (by omega), if_pos (by omega), Nat.add_sub_cancel_left])
  have haddrs (i : Fin (ndirect + 1)) :=
    get_bytes_field din (12 + 4 * i) 4 (din.addrs i).toNat (fun k hk => by
      rw [Dinode.bytes, if_neg (by omega), if_neg (by omega), if_neg (by omega),
        if_neg (by omega), if_neg (by omega)]
      have hquot : (12 + 4 * (i : ℕ) + k - 12) / 4 = i := by omega
      have hrem : (12 + 4 * (i : ℕ) + k - 12) % 4 = k := by omega
      rw [hquot, hrem, Fin.ofNat_val_eq_self])
  ext1
  · simp [getDinode, htype]
  · simp [getDinode, hmajor]
  · simp [getDinode, hminor]
  · simp [getDinode, hnlink]
  · simp [getDinode, hsize]
  · funext i
    simp [getDinode, haddrs i]

/-- An inode depends on its own bytes only. -/
theorem getDinode_congr {data' : Bytes} {off' : ℕ}
    (heq : ∀ k < sizeofDinode, data (off + k) = data' (off' + k)) :
    getDinode data off = getDinode data' off' := by
  have hfield (start n : ℕ) (hend : start + n ≤ sizeofDinode) :
      get data (off + start) n = get data' (off' + start) n := by
    apply get_congr
    intro k hk
    simpa only [Nat.add_assoc] using heq (start + k) (by omega)
  unfold sizeofDinode at hfield
  ext1
  · simp only [getDinode]
    rw [← Nat.add_zero off, ← Nat.add_zero off', hfield 0 2 (by omega)]
  · simp only [getDinode, hfield 2 2 (by omega)]
  · simp only [getDinode, hfield 4 2 (by omega)]
  · simp only [getDinode, hfield 6 2 (by omega)]
  · simp only [getDinode, hfield 8 4 (by omega)]
  · funext i
    have hi : (i : ℕ) < 13 := i.isLt
    simp only [getDinode, Nat.add_assoc, hfield (12 + 4 * i) 4 (by omega)]

@[simp] theorem getDinode_putDinode_self (data : Bytes) (off : ℕ) (din : Dinode) :
    getDinode (putDinode data off din) off = din := by
  rw [← getDinode_bytes din]
  apply getDinode_congr
  intro k hk
  unfold putDinode
  rw [copy_of_mem (by omega) (by omega), getDinode_bytes, Nat.zero_add, Nat.add_sub_cancel_left]

theorem getDinode_putDinode_of_disjoint {off' : ℕ} {din : Dinode}
    (hout : off + sizeofDinode ≤ off' ∨ off' + sizeofDinode ≤ off) :
    getDinode (putDinode data off' din) off = getDinode data off := by
  apply getDinode_congr
  intro k hk
  exact copy_of_not_mem (by omega)

@[simp] theorem getDinode_zero (off : ℕ) : getDinode (fun _ => 0) off = Dinode.zero := by
  ext1 <;> simp [getDinode, Dinode.zero]

@[simp] theorem word_zero (j : ℕ) : word (fun _ => 0) j = 0 := by
  simp [word]

theorem word_setWord_self (data : Bytes) (j : ℕ) {x : ℕ} (hx : x < 2 ^ 32) :
    word (setWord data j x) j = x := by
  unfold word setWord
  rw [get_put_self]
  exact Nat.mod_eq_of_lt (by norm_num at hx ⊢; omega)

theorem word_setWord_of_ne {j j' x : ℕ} (hne : j ≠ j') :
    word (setWord data j' x) j = word data j := by
  unfold word setWord
  exact get_put_of_disjoint (by omega)

/-- A mask of one bit tests this bit. -/
theorem and_one_shiftLeft_ne_zero (a : UInt8) {k : ℕ} (hk : k < 8) :
    (a &&& (1 <<< UInt8.ofNat k) != 0) = a.toNat.testBit k := by
  have hmask : (1 <<< UInt8.ofNat k : UInt8).toNat = 2 ^ k := by
    interval_cases k <;> rfl
  have hand : (a &&& (1 <<< UInt8.ofNat k)).toNat = (a.toNat.testBit k).toNat * 2 ^ k := by
    rw [UInt8.toNat_and, hmask, Nat.and_two_pow]
  cases hbit : a.toNat.testBit k with
  | true =>
    rw [bne_iff_ne, ne_eq, ← UInt8.toNat_inj, hand, hbit]
    simp
  | false =>
    rw [bne_eq_false_iff_eq, ← UInt8.toNat_inj, hand, hbit]
    simp

theorem bitSet_eq_testBit (data : Bytes) (bi : ℕ) :
    bitSet data bi = (data (bi / 8)).toNat.testBit (bi % 8) := by
  unfold bitSet
  exact and_one_shiftLeft_ne_zero _ (Nat.mod_lt _ (by omega))

theorem bitSet_setBit (data : Bytes) (bi bi' : ℕ) :
    bitSet (setBit data bi) bi' = (decide (bi' = bi) || bitSet data bi') := by
  rw [bitSet_eq_testBit, bitSet_eq_testBit]
  unfold setBit
  have hmask : (1 <<< UInt8.ofNat (bi % 8) : UInt8).toNat = 2 ^ (bi % 8) := by
    have hlt : bi % 8 < 8 := Nat.mod_lt _ (by omega)
    interval_cases bi % 8 <;> rfl
  by_cases hbyte : bi' / 8 = bi / 8
  · rw [hbyte, Function.update_self, UInt8.toNat_or, hmask, Nat.testBit_or,
      Nat.testBit_two_pow, Bool.or_comm]
    congr 1
    rw [decide_eq_decide]
    omega
  · have hne : bi' ≠ bi := by rintro rfl; exact hbyte rfl
    rw [Function.update_of_ne hbyte, decide_eq_false hne, Bool.false_or]

theorem bitSet_clearBit (data : Bytes) (bi bi' : ℕ) :
    bitSet (clearBit data bi) bi' = (!decide (bi' = bi) && bitSet data bi') := by
  rw [bitSet_eq_testBit, bitSet_eq_testBit]
  unfold clearBit
  have hmask : (~~~(1 <<< UInt8.ofNat (bi % 8)) : UInt8).toNat =
      2 ^ 8 - (2 ^ (bi % 8) + 1) := by
    have hlt : bi % 8 < 8 := Nat.mod_lt _ (by omega)
    interval_cases bi % 8 <;> rfl
  by_cases hbyte : bi' / 8 = bi / 8
  · have hpow : 2 ^ (bi % 8) < 2 ^ 8 :=
      Nat.pow_lt_pow_right (by omega) (Nat.mod_lt _ (by omega))
    have hlt : bi' % 8 < 8 := Nat.mod_lt _ (by omega)
    rw [hbyte, Function.update_self, UInt8.toNat_and, hmask, Nat.testBit_and,
      Nat.testBit_two_pow_sub_succ hpow, Nat.testBit_two_pow, decide_eq_true hlt,
      Bool.true_and, Bool.and_comm]
    congr 2
    rw [decide_eq_decide]
    omega
  · have hne : bi' ≠ bi := by rintro rfl; exact hbyte rfl
    rw [Function.update_of_ne hbyte, decide_eq_false hne, Bool.not_false, Bool.true_and]

end Fields

end Xv6.Fs
