import Xv6.Lib.GuardedRun
import Xv6.Lib.LinkedRing

/-!
# The buffer cache

Any number of processes that call `bread`, `bwrite`, `log_write` and `brelse` in any order, the
disk driver under them and its interrupt. A critical section under `bcache.lock` or `idelock` is
one step, and so is the granting of a buffer's sleep lock; what a process does with a buffer
whose lock it holds is a sequence of steps of its own. All callers pass `ROOTDEV`. A process
releases a buffer that it has changed after it has passed it to `log_write` or `bwrite`. A panic
is a step that is not possible, and the disk does not report errors.
-/

namespace Xv6.BufferCache

/-- `NBUF`. -/
def nbuf : ℕ := 30

/-- `FSSIZE`. -/
def fssize : ℕ := 1000

/-- `ROOTDEV`. -/
def rootDev : ℕ := 1

/-- The index of a buffer in `bcache.buf`. -/
abbrev Buf : Type := Fin nbuf

/-- `struct buf` without its lock and its links; `flags` is a field for each bit. -/
structure Buffer (α : Type*) where
  /-- The device. -/
  dev : ℕ
  /-- The block. -/
  blockno : ℕ
  /-- The number of processes that use the buffer. -/
  refcnt : ℕ
  /-- `B_VALID`: buffer has been read from disk. -/
  valid : Bool
  /-- `B_DIRTY`: buffer needs to be written to disk. -/
  dirty : Bool
  /-- The contents. -/
  data : α

/-- Where a process is. -/
inductive Pc
  /-- In none of the calls below. -/
  | idle
  /-- In `bget`, before `acquiresleep`. -/
  | locking (blockno : ℕ) (b : Buf)
  /-- In `bread`, at the test of `B_VALID`. -/
  | test (blockno : ℕ) (b : Buf)
  /-- In `iderw`, called by `bread`. -/
  | reading (blockno : ℕ) (b : Buf)
  /-- In `iderw`, called by `bwrite`. -/
  | writing (b : Buf)
  /-- In `brelse`, after `releasesleep`. -/
  | dropping (b : Buf)
  deriving DecidableEq

/-- The buffers, the disk driver and the processes. -/
structure State (P α : Type*) where
  /-- The buffers. -/
  buf : Buf → Buffer α
  /-- `next` and `prev` of the buffers and of `bcache.head`. -/
  links : LinkedRing Buf
  /-- The holders of the sleep locks. -/
  lock : Buf → Option P
  /-- `idequeue`. -/
  idequeue : List Buf
  /-- The blocks of the two disks. -/
  disk : ℕ → ℕ → α
  /-- Where the processes are. -/
  pc : P → Pc
  /-- Whether a buffer has been changed since it was last passed to `log_write` or `bwrite`. -/
  touched : Buf → Bool
  /-- What the last holder of each block of `ROOTDEV` left there, at first what is on the
  disk. -/
  left : ℕ → α

variable {P α : Type*} [DecidableEq P]

namespace State

/-- Change one buffer. -/
def setBuf (s : State P α) (b : Buf) (f : Buffer α → Buffer α) : State P α :=
  { s with buf := Function.update s.buf b (f (s.buf b)) }

/-- Move one process. -/
def goto (s : State P α) (p : P) (pc : Pc) : State P α :=
  { s with pc := Function.update s.pc p pc }

/-- The disk that holds the blocks of a buffer. -/
def drive (s : State P α) (b : Buf) : ℕ := (s.buf b).dev % 2

end State

/-! ## `bget` and `brelse` -/

/-- The first loop of `bget`: is the block already cached? -/
def lookup (s : State P α) (dev blockno : ℕ) : Option Buf :=
  LinkedRing.findFrom s.links.next
    (fun b => decide ((s.buf b).dev = dev ∧ (s.buf b).blockno = blockno)) nbuf
    (s.links.next none)

/-- The second loop of `bget`: an unused buffer, the least recently used one first. -/
def unused (s : State P α) : Option Buf :=
  LinkedRing.findFrom s.links.prev
    (fun b => decide ((s.buf b).refcnt = 0) && !(s.buf b).dirty) nbuf (s.links.prev none)

/-- `bget` up to `acquiresleep`: the buffer, unless there are none. -/
def bget (s : State P α) (dev blockno : ℕ) : Option (Buf × State P α) :=
  match lookup s dev blockno with
  | some b => some (b, s.setBuf b fun x => { x with refcnt := x.refcnt + 1 })
  | none =>
      (unused s).map fun b =>
        (b, s.setBuf b fun x =>
          { x with dev := dev, blockno := blockno, valid := false, dirty := false, refcnt := 1 })

/-- `brelse` after `releasesleep`. -/
def drop (s : State P α) (b : Buf) : State P α :=
  let s := s.setBuf b fun x => { x with refcnt := x.refcnt - 1 }
  if (s.buf b).refcnt = 0 then { s with links := (s.links.unlink b).insertHead b } else s

/-! ## The disk driver -/

/-- Whether `idestart` goes through. -/
def idestart (s : State P α) (b : Buf) : Bool := decide ((s.buf b).blockno < fssize)

/-- `iderw` up to its `while`. -/
def iderw (s : State P α) (b : Buf) : Option (State P α) :=
  if (s.buf b).valid && !(s.buf b).dirty then none
  else if s.idequeue = [] ∧ !idestart s b then none
  else some { s with idequeue := s.idequeue ++ [b] }

/-- Whether the `while` of `iderw` ends. -/
def synced (s : State P α) (b : Buf) : Bool := (s.buf b).valid && !(s.buf b).dirty

/-- The transfer of the buffer at the head of the queue, and its flags after it. -/
def transfer (s : State P α) (b : Buf) : State P α :=
  let n := (s.buf b).blockno
  let blocks := Function.update (s.disk (s.drive b)) n (s.buf b).data
  let s' :=
    if (s.buf b).dirty then { s with disk := Function.update s.disk (s.drive b) blocks }
    else s.setBuf b fun x => { x with data := s.disk (s.drive b) n }
  s'.setBuf b fun x => { x with valid := true, dirty := false }

/-- `ideintr`. -/
def ideintr (s : State P α) : Option (State P α) :=
  match s.idequeue with
  | [] => some s
  | b :: rest =>
      let s := transfer { s with idequeue := rest } b
      match rest with
      | [] => some s
      | b' :: _ => if idestart s b' then some s else none

/-! ## Steps -/

/-- A step. -/
inductive Action (P α : Type*)
  /-- `bread` of a block of `ROOTDEV`, up to `acquiresleep`. -/
  | bread (p : P) (blockno : ℕ)
  /-- `acquiresleep` returns. -/
  | acquiresleep (p : P)
  /-- The test of `B_VALID`: `bread` returns or goes on with `iderw`. -/
  | test (p : P)
  /-- The disk interrupts. -/
  | ideintr
  /-- `iderw` returns, and its caller with it. -/
  | wake (p : P)
  /-- A holder changes the contents. -/
  | modify (p : P) (b : Buf) (data : α)
  /-- A holder calls `log_write`. -/
  | logWrite (p : P) (b : Buf)
  /-- A holder calls `bwrite`. -/
  | bwrite (p : P) (b : Buf)
  /-- A holder calls `brelse`, up to the end of `releasesleep`. -/
  | releasesleep (p : P) (b : Buf)
  /-- The rest of `brelse`. -/
  | drop (p : P)

/-- The process holds the buffer, and is in none of the calls. -/
def Holds (s : State P α) (p : P) (b : Buf) : Prop := s.pc p = .idle ∧ s.lock b = some p

instance (s : State P α) (p : P) (b : Buf) : Decidable (Holds s p b) :=
  inferInstanceAs (Decidable (_ ∧ _))

/-- One step. -/
def step (s : State P α) : Action P α → Option (State P α)
  | .bread p blockno =>
      if s.pc p = .idle then
        (bget s rootDev blockno).map fun (b, s) => s.goto p (.locking blockno b)
      else none
  | .acquiresleep p =>
      match s.pc p with
      | .locking blockno b =>
          if s.lock b = none then
            some ({ s with lock := Function.update s.lock b (some p) }.goto p (.test blockno b))
          else none
      | _ => none
  | .test p =>
      match s.pc p with
      | .test blockno b =>
          if (s.buf b).valid then some (s.goto p .idle)
          else (iderw s b).map fun s => s.goto p (.reading blockno b)
      | _ => none
  | .ideintr => ideintr s
  | .wake p =>
      match s.pc p with
      | .reading _ b => if synced s b then some (s.goto p .idle) else none
      | .writing b => if synced s b then some (s.goto p .idle) else none
      | _ => none
  | .modify p b data =>
      if Holds s p b then
        some { s.setBuf b (fun x => { x with data := data }) with
          touched := Function.update s.touched b true }
      else none
  | .logWrite p b =>
      if Holds s p b then
        some { s.setBuf b (fun x => { x with dirty := true }) with
          touched := Function.update s.touched b false }
      else none
  | .bwrite p b =>
      if Holds s p b then
        (iderw { s.setBuf b (fun x => { x with dirty := true }) with
          touched := Function.update s.touched b false } b).map fun s => s.goto p (.writing b)
      else none
  | .releasesleep p b =>
      if Holds s p b ∧ s.touched b = false then
        some ({ s with
          lock := Function.update s.lock b none
          left := if (s.buf b).dev = rootDev then
            Function.update s.left (s.buf b).blockno (s.buf b).data else s.left }.goto p
              (.dropping b))
      else none
  | .drop p =>
      match s.pc p with
      | .dropping b => some ((drop s b).goto p .idle)
      | _ => none

/-- `bread` of the block returns the buffer to the process in this step. -/
def Returns (s : State P α) (a : Action P α) (s' : State P α) (p : P) (blockno : ℕ) (b : Buf) :
    Prop :=
  (a = .test p ∧ s.pc p = .test blockno b ∨ a = .wake p ∧ s.pc p = .reading blockno b) ∧
    s'.pc p = .idle

/-- The links after `binit`. -/
def binitLinks : LinkedRing Buf :=
  (List.finRange nbuf).foldl LinkedRing.insertHead LinkedRing.empty

/-- After `binit`, with all the memory of the buffers zero but for what they contain. -/
def binit (disk : ℕ → ℕ → α) (data : Buf → α) : State P α where
  buf b := ⟨0, 0, 0, false, false, data b⟩
  links := binitLinks
  lock _ := none
  idequeue := []
  disk := disk
  pc _ := .idle
  touched _ := false
  left := disk (rootDev % 2)

end Xv6.BufferCache
