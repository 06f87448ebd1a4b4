import Xv6.Disk
import Xv6.Lib.StateProg

/-!
# Inodes and directories

The functions of `fs.c` on blocks, inodes and directories, one after the other as one kernel
thread runs them. Disk blocks are read and written as `bread` and `log_write` leave them to
the next reader; the sleep lock of an inode is a flag, since the only one that can wait for
it here is its holder.
-/

namespace Xv6.Fs

open LittleEndian

/-- How a function fails to return: the panics, and the wait for an inode lock that the
thread itself holds. -/
inductive Halt
  | ballocOutOfBlocks
  | freeingFreeBlock
  | iallocNoInodes
  | igetNoInodes
  | ilock
  | ilockNoType
  | iunlock
  | bmapOutOfRange
  | dirlookupNotDir
  | dirlookupRead
  | dirlinkRead
  | dirlink
  | unlinkNlink
  | unlinkWritei
  | isdirempty
  | shortFilewrite
  | filewrite
  | selfDeadlock
deriving DecidableEq

/-- `struct inode`; the device is always `ROOTDEV`. -/
structure Inode where
  /-- Inode number. -/
  inum : ℕ
  /-- Reference count. -/
  ref : ℤ
  /-- Whether the sleep lock is held. -/
  locked : Bool
  /-- Whether the inode has been read from the disk. -/
  valid : Bool
  /-- Copy of the inode on the disk. -/
  din : Dinode

/-- `struct devsw`: the functions of a device, by what they return and, for `read`, the bytes
they deliver. -/
structure Devsw where
  /-- Answer to a request for a number of bytes. -/
  read : Option (ℕ → ℤ × Bytes)
  /-- Answer to the bytes of a write and their number. -/
  write : Option (Bytes → ℕ → ℤ)

/-- The calls that bracket a transaction of the log, and those inside of it. -/
inductive LogCall
  | beginOp
  | logWrite (b : ℕ)
  | endOp
deriving DecidableEq

/-- A pointer into `icache.inode`. -/
abbrev InodePtr := Fin ninode

instance : NeZero ninode := ⟨by decide⟩

/-- The state of the file system. -/
structure State where
  /-- The superblock in memory. -/
  sb : Superblock
  /-- The blocks. -/
  disk : Disk
  /-- `icache.inode`. -/
  icache : InodePtr → Inode
  /-- The device table. -/
  devsw : Fin ndev → Devsw
  /-- The calls of the log so far, the last one first. -/
  calls : List LogCall

/-- Kernel functions on the file system. -/
abbrev FsM := StateT State (Except Halt)

/-- `if(c) panic(..)`. -/
def panicIf (c : Prop) [Decidable c] (halt : Halt) : FsM Unit :=
  if c then throw halt else pure ()

/-- `bread`: the contents of a block. -/
def bread (b : ℕ) : FsM Bytes := do
  let s ← get
  return s.disk b

/-- `log_write` of a buffer for a block with new contents. -/
def logWrite (b : ℕ) (data : Bytes) : FsM Unit :=
  modify fun s =>
    { s with disk := Function.update s.disk b data, calls := .logWrite b :: s.calls }

/-- `begin_op`. -/
def beginOp : FsM Unit := modify fun s => { s with calls := .beginOp :: s.calls }

/-- `end_op`. -/
def endOp : FsM Unit := modify fun s => { s with calls := .endOp :: s.calls }

/-- The fields of a cached inode. -/
def inode (ip : InodePtr) : FsM Inode := do
  let s ← get
  return s.icache ip

/-- Assignments to fields of a cached inode. -/
def setInode (ip : InodePtr) (f : Inode → Inode) : FsM Unit :=
  modify fun s => { s with icache := Function.update s.icache ip (f (s.icache ip)) }

/-- `readsb` into the superblock in memory. -/
def readsb : FsM Unit := modify fun s => { s with sb := getSuperblock (s.disk 1) }

/-- `bzero`. -/
def bzero (b : ℕ) : FsM Unit := logWrite b fun _ => 0

/-- `balloc`: the two loops run through the block numbers from 0 on. -/
def balloc : FsM ℕ := do
  let s ← get
  match (List.range s.sb.size).find? fun b => !bitSet (s.disk (s.sb.bblock b)) (b % bpb) with
  | none => throw .ballocOutOfBlocks
  | some b =>
    let bp ← bread (s.sb.bblock b)
    logWrite (s.sb.bblock b) (setBit bp (b % bpb))
    bzero b
    return b

/-- `bfree`. -/
def bfree (b : ℕ) : FsM Unit := do
  readsb
  let s ← get
  let bp ← bread (s.sb.bblock b)
  panicIf (!bitSet bp (b % bpb)) .freeingFreeBlock
  logWrite (s.sb.bblock b) (clearBit bp (b % bpb))

/-- `iget`. -/
def iget (inum : ℕ) : FsM InodePtr := do
  let s ← get
  match (List.finRange ninode).find? fun ip =>
      0 < (s.icache ip).ref ∧ (s.icache ip).inum = inum with
  | some ip =>
    setInode ip fun i => { i with ref := i.ref + 1 }
    return ip
  | none =>
    match (List.finRange ninode).find? fun ip => (s.icache ip).ref = 0 with
    | none => throw .igetNoInodes
    | some ip =>
      setInode ip fun i => { i with inum, ref := 1, valid := false }
      return ip

/-- `ialloc`. -/
def ialloc (type : Int16) : FsM InodePtr := do
  let s ← get
  match (List.range' 1 (s.sb.ninodes - 1)).find? fun inum =>
      (getDinode (s.disk (s.sb.iblock inum)) (inum % ipb * sizeofDinode)).type = 0 with
  | none => throw .iallocNoInodes
  | some inum =>
    let bp ← bread (s.sb.iblock inum)
    logWrite (s.sb.iblock inum)
      (putDinode bp (inum % ipb * sizeofDinode) { Dinode.zero with type })
    iget inum

/-- `iupdate`. -/
def iupdate (ip : InodePtr) : FsM Unit := do
  let s ← get
  let i ← inode ip
  let bp ← bread (s.sb.iblock i.inum)
  logWrite (s.sb.iblock i.inum) (putDinode bp (i.inum % ipb * sizeofDinode) i.din)

/-- `idup`. -/
def idup (ip : InodePtr) : FsM Unit := setInode ip fun i => { i with ref := i.ref + 1 }

/-- `acquiresleep` on the lock of an inode. -/
def acquiresleep (ip : InodePtr) : FsM Unit := do
  let i ← inode ip
  panicIf (i.locked = true) .selfDeadlock
  setInode ip fun i => { i with locked := true }

/-- `releasesleep` on the lock of an inode. -/
def releasesleep (ip : InodePtr) : FsM Unit := setInode ip fun i => { i with locked := false }

/-- `ilock`, the reading of an inode that is not valid. -/
def ilockRead (ip : InodePtr) : FsM Unit := do
  let s ← get
  let i ← inode ip
  let bp ← bread (s.sb.iblock i.inum)
  let din := getDinode bp (i.inum % ipb * sizeofDinode)
  setInode ip fun i => { i with din, valid := true }
  panicIf (din.type = 0) .ilockNoType

/-- `ilock`. -/
def ilock (ip : InodePtr) : FsM Unit := do
  let i ← inode ip
  panicIf (i.ref < 1) .ilock
  acquiresleep ip
  if i.valid then pure () else ilockRead ip

/-- `iunlock`. -/
def iunlock (ip : InodePtr) : FsM Unit := do
  let i ← inode ip
  panicIf (i.locked = false ∨ i.ref < 1) .iunlock
  releasesleep ip

/-- `itrunc`, the freeing of the block at an address of the inode. -/
def freeAddr (ip : InodePtr) (k : Fin (ndirect + 1)) : FsM Unit := do
  let i ← inode ip
  if i.din.addr k ≠ 0 then
    bfree (i.din.addr k)
    setInode ip fun i => { i with din := i.din.setAddr k 0 }
  else pure ()

/-- `itrunc`, the freeing of the blocks that the indirect block lists. -/
def freeEntries (ip : InodePtr) : FsM Unit := do
  let i ← inode ip
  if i.din.addr (Fin.last ndirect) ≠ 0 then
    let bp ← bread (i.din.addr (Fin.last ndirect))
    (List.finRange nindirect).forM fun j =>
      if word bp j ≠ 0 then bfree (word bp j) else pure ()
  else pure ()

/-- `itrunc`. -/
def itrunc (ip : InodePtr) : FsM Unit := do
  ((List.finRange ndirect).map Fin.castSucc).forM (freeAddr ip)
  freeEntries ip
  freeAddr ip (Fin.last ndirect)
  setInode ip fun i => { i with din := { i.din with size := 0 } }
  iupdate ip

/-- `iput`, the truncating and freeing of an inode that has no links and no other
references. -/
def iputFree (ip : InodePtr) : FsM Unit := do
  let i ← inode ip
  if i.valid = true ∧ i.din.nlink = 0 ∧ i.ref = 1 then
    itrunc ip
    setInode ip fun i => { i with din := { i.din with type := 0 } }
    iupdate ip
    setInode ip fun i => { i with valid := false }
  else pure ()

/-- `iput`. -/
def iput (ip : InodePtr) : FsM Unit := do
  acquiresleep ip
  iputFree ip
  releasesleep ip
  setInode ip fun i => { i with ref := i.ref - 1 }

/-- `iunlockput`. -/
def iunlockput (ip : InodePtr) : FsM Unit := do
  iunlock ip
  iput ip

/-- `bmap`, the block at an address of the inode, allocated if there is none. -/
def bmapAddr (ip : InodePtr) (k : Fin (ndirect + 1)) : FsM ℕ := do
  let i ← inode ip
  if i.din.addr k ≠ 0 then return i.din.addr k
  else
    let b ← balloc
    setInode ip fun i => { i with din := i.din.setAddr k b }
    return b

/-- `bmap`, the block at an entry of the indirect block, allocated if there is none. -/
def bmapEntry (addr : ℕ) (j : ℕ) : FsM ℕ := do
  let bp ← bread addr
  if word bp j ≠ 0 then return word bp j
  else
    let b ← balloc
    logWrite addr (setWord bp j b)
    return b

/-- `bmap`. -/
def bmap (ip : InodePtr) (bn : ℕ) : FsM ℕ :=
  if hdirect : bn < ndirect then bmapAddr ip ⟨bn, Nat.lt_succ_of_lt hdirect⟩
  else if bn - ndirect < nindirect then do
    let addr ← bmapAddr ip (Fin.last ndirect)
    bmapEntry addr (bn - ndirect)
  else throw .bmapOutOfRange

/-- The loop of `readi`; the first argument bounds the rounds, and `n` of them suffice. -/
def readiLoop (ip : InodePtr) (n : ℕ) : ℕ → ℕ → ℕ → Bytes → FsM Bytes
  | 0, _, _, dst => return dst
  | fuel + 1, tot, off, dst =>
    if tot < n then do
      let b ← bmap ip (off / bsize)
      let bp ← bread b
      let m := min (n - tot) (bsize - off % bsize)
      readiLoop ip n fuel (tot + m) (off + m) (copy dst tot m fun k => bp (off % bsize + k))
    else return dst

/-- `readi`: the result and the bytes it stores to the destination. -/
def readi (ip : InodePtr) (off n : ℕ) : FsM (ℤ × Bytes) := do
  let s ← get
  let i ← inode ip
  if i.din.type = tDev then
    if hmajor : 0 ≤ i.din.major.toInt ∧ i.din.major.toInt < ndev then
      match (s.devsw ⟨i.din.major.toInt.toNat, by omega⟩).read with
      | some read => return read n
      | none => return (-1, fun _ => 0)
    else return (-1, fun _ => 0)
  else if off > i.din.size.toNat ∨ (off + n) % 2 ^ 32 < off then return (-1, fun _ => 0)
  else
    let n := if off + n > i.din.size.toNat then i.din.size.toNat - off else n
    let dst ← readiLoop ip n n 0 off fun _ => 0
    return (n, dst)

/-- The loop of `writei`; the first argument bounds the rounds, and `n` of them suffice. It
returns the offset behind the last byte. -/
def writeiLoop (ip : InodePtr) (src : Bytes) (n : ℕ) : ℕ → ℕ → ℕ → FsM ℕ
  | 0, _, off => return off
  | fuel + 1, tot, off =>
    if tot < n then do
      let b ← bmap ip (off / bsize)
      let bp ← bread b
      let m := min (n - tot) (bsize - off % bsize)
      logWrite b (copy bp (off % bsize) m fun k => src (tot + k))
      writeiLoop ip src n fuel (tot + m) (off + m)
    else return off

/-- `writei`, the new size of an inode that has grown. -/
def writeiSize (ip : InodePtr) (off n : ℕ) : FsM Unit := do
  let i ← inode ip
  if 0 < n ∧ off > i.din.size.toNat then
    setInode ip fun i => { i with din := { i.din with size := UInt32.ofNat off } }
    iupdate ip
  else pure ()

/-- `writei` of `n` bytes of `src`. -/
def writei (ip : InodePtr) (src : Bytes) (off n : ℕ) : FsM ℤ := do
  let s ← get
  let i ← inode ip
  if i.din.type = tDev then
    if hmajor : 0 ≤ i.din.major.toInt ∧ i.din.major.toInt < ndev then
      match (s.devsw ⟨i.din.major.toInt.toNat, by omega⟩).write with
      | some write => return write src n
      | none => return -1
    else return -1
  else if off > i.din.size.toNat ∨ (off + n) % 2 ^ 32 < off then return -1
  else if off + n > maxFile * bsize then return -1
  else
    let off ← writeiLoop ip src n n 0 off
    writeiSize ip off n
    return n

/-- The offsets at which the loops over a directory of this size look for entries. -/
def direntOffsets (size : ℕ) : List ℕ :=
  (List.range ((size + (sizeofDirent - 1)) / sizeofDirent)).map (sizeofDirent * ·)

/-- The loop of `dirlookup`: the inode number and the offset of the entry. -/
def dirlookupLoop (dp : InodePtr) (name : Bytes) : List ℕ → FsM (Option (ℕ × ℕ))
  | [] => return none
  | off :: offs => do
    let (r, de) ← readi dp off sizeofDirent
    panicIf (r ≠ sizeofDirent) .dirlookupRead
    if direntInum de ≠ 0 ∧ namecmp name (direntName de) = 0 then
      return some (direntInum de, off)
    else dirlookupLoop dp name offs

/-- `dirlookup`: the inode and the offset of the entry. -/
def dirlookup (dp : InodePtr) (name : Bytes) : FsM (Option (InodePtr × ℕ)) := do
  let i ← inode dp
  panicIf (i.din.type ≠ tDir) .dirlookupNotDir
  match ← dirlookupLoop dp name (direntOffsets i.din.size.toNat) with
  | none => return none
  | some (inum, off) =>
    let ip ← iget inum
    return some (ip, off)

/-- `dirlink`, the offset of an empty entry, or the one behind the last entry. -/
def dirlinkFind (dp : InodePtr) (last : ℕ) : List ℕ → FsM ℕ
  | [] => return last
  | off :: offs => do
    let (r, de) ← readi dp off sizeofDirent
    panicIf (r ≠ sizeofDirent) .dirlinkRead
    if direntInum de = 0 then return off
    else dirlinkFind dp last offs

/-- `dirlink`, the writing of the entry. -/
def dirlinkWrite (dp : InodePtr) (name : Bytes) (inum : ℕ) : FsM ℤ := do
  let i ← inode dp
  let offs := direntOffsets i.din.size.toNat
  let off ← dirlinkFind dp (sizeofDirent * offs.length) offs
  let r ← writei dp (dirent inum (strncpy name dirSiz)) off sizeofDirent
  panicIf (r ≠ sizeofDirent) .dirlink
  return 0

/-- `dirlink`. -/
def dirlink (dp : InodePtr) (name : Bytes) (inum : ℕ) : FsM ℤ := do
  match ← dirlookup dp name with
  | some (ip, _) =>
    iput ip
    return -1
  | none => dirlinkWrite dp name inum

/-- The loop of `isdirempty`. -/
def isdiremptyLoop (dp : InodePtr) : List ℕ → FsM Bool
  | [] => return true
  | off :: offs => do
    let (r, de) ← readi dp off sizeofDirent
    panicIf (r ≠ sizeofDirent) .isdirempty
    if direntInum de ≠ 0 then return false
    else isdiremptyLoop dp offs

/-- `isdirempty`. -/
def isdirempty (dp : InodePtr) : FsM Bool := do
  let i ← inode dp
  isdiremptyLoop dp ((direntOffsets i.din.size.toNat).drop 2)

/-- `sys_unlink`, the refusal of a directory that is not empty. -/
def nonemptyDir (ip : InodePtr) : FsM Bool := do
  let i ← inode ip
  if i.din.type = tDir then
    let empty ← isdirempty ip
    return !empty
  else return false

/-- `sys_unlink`, the decrement of the directory's link count for the `..` of a removed
directory. -/
def unlinkParent (dp : InodePtr) (isDir : Prop) [Decidable isDir] : FsM Unit :=
  if isDir then do
    setInode dp fun i => { i with din := { i.din with nlink := i.din.nlink - 1 } }
    iupdate dp
  else pure ()

/-- `sys_unlink` from the clearing of the entry on. -/
def unlinkEntry (dp ip : InodePtr) (off : ℕ) : FsM ℤ := do
  let r ← writei dp (fun _ => 0) off sizeofDirent
  panicIf (r ≠ sizeofDirent) .unlinkWritei
  let i ← inode ip
  unlinkParent dp (i.din.type = tDir)
  iunlockput dp
  setInode ip fun i => { i with din := { i.din with nlink := i.din.nlink - 1 } }
  iupdate ip
  iunlockput ip
  return 0

/-- The name `.`. -/
def dotName : Bytes := fun k => if k = 0 then 46 else 0

/-- The name `..`. -/
def dotdotName : Bytes := fun k => if k < 2 then 46 else 0

/-- `sys_unlink` after `nameiparent` has returned the directory and the name. -/
def unlink (dp : InodePtr) (name : Bytes) : FsM ℤ := do
  ilock dp
  if namecmp name dotName = 0 ∨ namecmp name dotdotName = 0 then
    iunlockput dp
    return -1
  else
    match ← dirlookup dp name with
    | none =>
      iunlockput dp
      return -1
    | some (ip, off) =>
      ilock ip
      let i ← inode ip
      panicIf (i.din.nlink < 1) .unlinkNlink
      let nonempty ← nonemptyDir ip
      if nonempty then
        iunlockput ip
        iunlockput dp
        return -1
      else unlinkEntry dp ip off

end Xv6.Fs
