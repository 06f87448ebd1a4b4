import Xv6.Directory
import Xv6.Path

/-!
# The image of the disk

`mkfs.c` writes the image: the superblock, the inodes, the root directory, the files and the free
map. It hands out inodes and blocks in order, and marks the blocks at the end.

The files of the host can be opened and read, and the image can be written. It has `FSSIZE` blocks:
each block is read before it is written, so that none is written behind its end.
-/

namespace Xv6.Mkfs

open Fs

/-- `FSSIZE`. -/
def fssize : ℕ := 1000

/-- `NINODES`. -/
def ninodes : ℕ := 200

/-- `nbitmap`. -/
def nbitmap : ℕ := fssize / (bsize * 8) + 1

/-- `ninodeblocks`. -/
def ninodeblocks : ℕ := ninodes / ipb + 1

/-- `nmeta`. -/
def nmeta : ℕ := 2 + logSize + ninodeblocks + nbitmap

/-- `sb`. -/
def sb : Superblock where
  size := fssize
  nblocks := fssize - nmeta
  ninodes := ninodes
  nlog := logSize
  logstart := 2
  inodestart := 2 + logSize
  bmapstart := 2 + logSize + ninodeblocks

/-- The block with the bytes of `sb`. -/
def sbBlock : Bytes :=
  [sb.size, sb.nblocks, sb.ninodes, sb.nlog, sb.logstart, sb.inodestart, sb.bmapstart].zipIdx.foldl
    (fun buf field => setWord buf field.2 field.1) (fun _ => 0)

/-- The image, and the counters. -/
structure State where
  /-- The image. -/
  disk : Disk
  /-- `freeinode`. -/
  freeinode : ℕ
  /-- `freeblock`. -/
  freeblock : ℕ

/-- The inode of an empty file. -/
def emptyInode (type : Int16) : Dinode := ⟨type, 0, 0, 1, 0, fun _ => 0⟩

/-- What `iappend` knows of the block it is about to write. -/
structure Place where
  /-- The image, and the counters. -/
  state : State
  /-- `din`. -/
  din : Dinode
  /-- The block number. -/
  x : ℕ

/-- `n1`. -/
def pieceSize (off n : ℕ) : ℕ := min n ((off / bsize + 1) * bsize - off)

namespace State

/-- `rsect`; `none` behind the end of the image. -/
def rsect (s : State) (sec : ℕ) : Option Bytes :=
  if sec < fssize then some (s.disk sec) else none

/-- `wsect`. -/
def wsect (s : State) (sec : ℕ) (buf : Bytes) : State :=
  { s with disk := Function.update s.disk sec buf }

/-- `winode`. -/
def winode (s : State) (inum : ℕ) (din : Dinode) : Option State :=
  (s.rsect (sb.iblock inum)).map fun buf =>
    s.wsect (sb.iblock inum) (putDinode buf (inum % ipb * sizeofDinode) din)

/-- `rinode`. -/
def rinode (s : State) (inum : ℕ) : Option Dinode :=
  (s.rsect (sb.iblock inum)).map fun buf => getDinode buf (inum % ipb * sizeofDinode)

/-- `ialloc`; the inode number is `freeinode`. -/
def ialloc (s : State) (type : Int16) : Option State :=
  { s with freeinode := s.freeinode + 1 }.winode s.freeinode (emptyInode type)

/-- The block at an address of `din`, with `freeblock++` if there is none. -/
def addrBlock (s : State) (din : Dinode) (k : Fin (ndirect + 1)) : Place :=
  if din.addr k = 0 then
    ⟨{ s with freeblock := s.freeblock + 1 }, din.setAddr k s.freeblock,
      (din.setAddr k s.freeblock).addr k⟩
  else ⟨s, din, din.addr k⟩

/-- The block at an entry of the indirect block, with `freeblock++` if there is none. -/
def entryBlock (s : State) (din : Dinode) (ind j : ℕ) : Option Place :=
  (s.rsect ind).map fun indirect =>
    if word indirect j = 0 then
      ⟨{ s with freeblock := s.freeblock + 1 }.wsect ind (setWord indirect j s.freeblock), din,
        word (setWord indirect j s.freeblock) j⟩
    else ⟨s, din, word indirect j⟩

/-- The block `fbn` of the file, `x` in `iappend`. -/
def fileBlock (s : State) (din : Dinode) (fbn : ℕ) : Option Place :=
  if hdirect : fbn < ndirect then some (s.addrBlock din ⟨fbn, Nat.lt_succ_of_lt hdirect⟩)
  else
    let a := s.addrBlock din (Fin.last ndirect)
    a.state.entryBlock a.din a.x (fbn - ndirect)

/-- One turn of the loop of `iappend`; `none` if the file is too long. -/
def iappendTurn (s : State) (din : Dinode) (off : ℕ) (p : List UInt8) : Option (State × Dinode) :=
  if off / bsize < maxFile then
    (s.fileBlock din (off / bsize)).bind fun a =>
      (a.state.rsect a.x).map fun buf =>
        (a.state.wsect a.x (LittleEndian.copy buf (off - off / bsize * bsize)
          (pieceSize off p.length) (fun k => p.getD k 0)), a.din)
  else none

/-- The loop of `iappend`, whose turns are counted; `p` is what is left. -/
def iappendLoop : ℕ → State → Dinode → ℕ → List UInt8 → Option (State × Dinode)
  | 0, s, din, _, _ => some (s, din)
  | turns + 1, s, din, off, p =>
    if 0 < p.length then
      (s.iappendTurn din off p).bind fun x =>
        iappendLoop turns x.1 x.2 (off + pieceSize off p.length)
          (p.drop (pieceSize off p.length))
    else some (s, din)

/-- `iappend`; each turn of its loop writes a byte at least. -/
def iappend (s : State) (inum : ℕ) (xp : List UInt8) : Option State :=
  (s.rinode inum).bind fun din =>
    (iappendLoop xp.length s din din.size.toNat xp).bind fun x =>
      x.1.winode inum { x.2 with size := UInt32.ofNat (din.size.toNat + xp.length) }

/-- `balloc`. -/
def balloc (s : State) (used : ℕ) : Option State :=
  if used < bsize * 8 then
    some (s.wsect sb.bmapstart ((List.range used).foldl setBit fun _ => 0))
  else none

end State

/-- The bytes of an entry of a directory. -/
def entry (inum : ℕ) (name : Bytes) : List UInt8 := firstBytes (dirent inum name) sizeofDirent

/-- A file of the host: its name, and what `read` returns until it returns 0. -/
structure HostFile where
  /-- An argument of the command. -/
  name : List UInt8
  /-- The parts. -/
  parts : List (List UInt8)

/-- `'_'`. -/
def underscore : UInt8 := 95

/-- The name in the file system, without a leading underscore. -/
def HostFile.target (f : HostFile) : Bytes :=
  fun k => (if f.name.head? = some underscore then f.name.tail else f.name).getD k 0

/-- The body of the loop over the arguments. -/
def State.addFile (s : State) (f : HostFile) : Option State :=
  if slash ∈ f.name then none
  else
    (s.ialloc tFile).bind fun t =>
      (t.iappend rootIno (entry s.freeinode (strncpy f.target dirSiz))).bind fun t =>
        f.parts.foldlM (fun t part => t.iappend s.freeinode part) t

/-- The image with nothing but the superblock. -/
def State.start : State := (⟨fun _ _ => 0, 1, nmeta⟩ : State).wsect 1 sbBlock

/-- The root directory without files. -/
def rootDir : Option State :=
  if State.start.freeinode ≠ rootIno then none
  else
    (State.start.ialloc tDir).bind fun s =>
      (s.iappend rootIno (entry rootIno dotName)).bind fun s =>
        s.iappend rootIno (entry rootIno dotdotName)

/-- The size of the root directory is rounded up. -/
def State.fixSize (s : State) : Option State :=
  (s.rinode rootIno).bind fun din =>
    s.winode rootIno
      { din with size := UInt32.ofNat ((din.size.toNat / bsize + 1) * bsize) }

/-- `main`, when there is an image to write; `none` if an assertion fails or the image is full. -/
def mkfs (files : List HostFile) : Option State :=
  rootDir.bind fun s =>
    (files.foldlM State.addFile s).bind fun s => s.fixSize.bind fun s => s.balloc s.freeblock

end Xv6.Mkfs
