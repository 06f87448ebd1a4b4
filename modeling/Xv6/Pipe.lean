import Xv6.Param
import Xv6.Lib.RingBuffer
import Xv6.Lib.GuardedRun

/-!
# Pipes

`struct pipe` and the system of any number of processes that call `pipewrite`, `piperead` and
`pipeclose` on one pipe, in any order. Each call is a walk through the positions of its code;
`p->lock` is held from the positions after `acquire` to the one before `release` or `sleep`.
`sleep` takes `ptable.lock` before it gives up `p->lock`, so giving up the lock and falling
asleep are one step. `kill` may mark any process at any time.

When both ends are closed the page is returned to the allocator. No step on the pipe is
modelled after that.
-/

namespace Xv6.PipeRun

/-- `PIPESIZE`. -/
def pipeSize : ℕ := 512

instance : NeZero pipeSize := ⟨by decide⟩

/-- `struct pipe` without its lock. The counters are of type `uint`. -/
structure Pipe where
  /-- The bytes. -/
  data : Fin pipeSize → UInt8
  /-- Number of bytes read. -/
  nread : ℕ
  /-- Number of bytes written. -/
  nwrite : ℕ
  /-- The read end is still open. -/
  readopen : Bool
  /-- The write end is still open. -/
  writeopen : Bool

/-- `p->nread == p->nwrite`. -/
def Pipe.Empty (p : Pipe) : Prop := p.nread = p.nwrite

/-- `p->nwrite == p->nread + PIPESIZE`. -/
def Pipe.Full (p : Pipe) : Prop := p.nwrite = (p.nread + pipeSize) % 2 ^ 32

instance (p : Pipe) : Decidable p.Empty := inferInstanceAs (Decidable (_ = _))

instance (p : Pipe) : Decidable p.Full := inferInstanceAs (Decidable (_ = _))

/-- `p->data[p->nwrite++ % PIPESIZE] = b`. -/
def Pipe.store (p : Pipe) (b : UInt8) : Pipe :=
  { p with
    data := fun j => if j = Fin.ofNat pipeSize p.nwrite then b else p.data j
    nwrite := (p.nwrite + 1) % 2 ^ 32 }

/-- `p->data[p->nread++ % PIPESIZE]`, the value. -/
def Pipe.next (p : Pipe) : UInt8 := p.data (Fin.ofNat pipeSize p.nread)

/-- `p->data[p->nread++ % PIPESIZE]`, the effect. -/
def Pipe.take (p : Pipe) : Pipe := { p with nread := (p.nread + 1) % 2 ^ 32 }

/-- The circular buffer inside a pipe. -/
def Pipe.ring (p : Pipe) : RingBuffer UInt8 pipeSize (2 ^ 32) := ⟨p.data, p.nread, p.nwrite⟩

/-- The channels of a pipe: `&p->nread` and `&p->nwrite`. -/
inductive Chan
  | nread | nwrite
  deriving DecidableEq

/-- Arguments and locals of `pipewrite`. -/
structure WriteCall where
  /-- `addr`. -/
  addr : ℕ → UInt8
  /-- `n`. -/
  n : ℤ
  /-- `i`. -/
  i : ℕ

/-- Arguments and locals of `piperead`; `i` is the number of bytes copied to `addr`. -/
structure ReadCall where
  /-- `n`. -/
  n : ℤ
  /-- The bytes copied so far. -/
  addr : List UInt8

/-- Positions in `pipewrite`. -/
inductive WritePc
  /-- Before `acquire`. -/
  | acquire
  /-- At the test `i < n`. -/
  | loop
  /-- At the test whether the pipe is full; if it is not, the byte is stored. -/
  | full
  /-- At the test of `readopen` and `killed`. -/
  | giveUp
  /-- At `wakeup(&p->nread)` in the loop. -/
  | wakeup
  /-- At the call of `sleep`. -/
  | sleep
  /-- Asleep on `&p->nwrite`. -/
  | asleep
  /-- Woken, before it takes the lock again. -/
  | woken
  /-- At `wakeup(&p->nread)` after the loop. -/
  | done
  /-- At `release`, with the value to return. -/
  | release (result : ℤ)

/-- Positions in `piperead`. -/
inductive ReadPc
  /-- Before `acquire`. -/
  | acquire
  /-- At the test whether the pipe is empty and may still be written. -/
  | empty
  /-- At the test of `killed`. -/
  | giveUp
  /-- At the call of `sleep`. -/
  | sleep
  /-- Asleep on `&p->nread`. -/
  | asleep
  /-- Woken, before it takes the lock again. -/
  | woken
  /-- At the test `i < n`. -/
  | loop
  /-- At the test whether the pipe is empty; if it is not, a byte is copied. -/
  | copy
  /-- At `wakeup(&p->nwrite)`. -/
  | done
  /-- At `release`, with the value to return. -/
  | release (result : ℤ)

/-- Positions in `pipeclose`. -/
inductive ClosePc
  /-- Before `acquire`. -/
  | acquire
  /-- Before the end is marked closed. -/
  | mark
  /-- At the `wakeup` of the other end. -/
  | wakeup
  /-- At the test whether both ends are closed, and `release`. -/
  | release

/-- What a process does on the pipe. -/
inductive Pc
  /-- No call is in progress. -/
  | idle
  /-- In `pipewrite`. -/
  | write (c : WriteCall) (pc : WritePc)
  /-- In `piperead`. -/
  | read (c : ReadCall) (pc : ReadPc)
  /-- In `pipeclose`. -/
  | close (writable : Bool) (pc : ClosePc)

/-- The channel a process sleeps on. -/
def Pc.chan : Pc → Option Chan
  | .write _ .asleep => some .nwrite
  | .read _ .asleep => some .nread
  | _ => none

/-- A sleeper becomes `RUNNABLE`. -/
def Pc.wake : Pc → Pc
  | .write c .asleep => .write c .woken
  | .read c .asleep => .read c .woken
  | pc => pc

/-- The pipe, its lock, the processes that use it, and the history of its bytes. -/
structure State (P : Type*) where
  /-- The pipe. -/
  pipe : Pipe
  /-- The holder of `p->lock`. -/
  lock : Option P
  /-- The page has been freed. -/
  freed : Bool
  /-- Where each process is. -/
  pc : P → Pc
  /-- `killed` of each process. -/
  killed : P → Bool
  /-- The bytes stored by `pipewrite`, in order. -/
  stored : List UInt8
  /-- The bytes taken by `piperead`, in order. -/
  taken : List UInt8
  /-- The bytes of the calls of `piperead` that have returned, in the order of their returns. -/
  returned : List UInt8

namespace State

variable {P : Type*} [DecidableEq P]

/-- A pipe from `pipealloc`; the page holds any bytes, and some processes may be marked. -/
def init (data : Fin pipeSize → UInt8) (killed : P → Bool) : State P :=
  ⟨⟨data, 0, 0, true, true⟩, none, false, fun _ => .idle, killed, [], [], []⟩

/-- Move one process. -/
def goto (s : State P) (q : P) (pc : Pc) : State P :=
  { s with pc := fun r => if r = q then pc else s.pc r }

/-- `acquire(&p->lock)`, possible when the lock is free, and the next position. -/
def acquire (s : State P) (q : P) (pc : Pc) : Option (State P) :=
  if s.lock = none ∧ s.freed = false then some ({ s with lock := some q }.goto q pc) else none

/-- `release(&p->lock)` and the next position. -/
def release (s : State P) (q : P) (pc : Pc) : State P := { s with lock := none }.goto q pc

/-- `wakeup`. -/
def wakeup (s : State P) (chan : Chan) : State P :=
  { s with pc := fun q => if (s.pc q).chan = some chan then (s.pc q).wake else s.pc q }

/-- A process is asleep on a channel. -/
def AsleepOn (s : State P) (q : P) (chan : Chan) : Prop := (s.pc q).chan = some chan

/-- `pipewrite`, one step. -/
def writeStep (s : State P) (q : P) (c : WriteCall) : WritePc → Option (State P)
  | .acquire => s.acquire q (.write c .loop)
  | .loop => some (s.goto q (.write c (if (c.i : ℤ) < c.n then .full else .done)))
  | .full =>
      if s.pipe.Full then some (s.goto q (.write c .giveUp))
      else
        some ({ s with
          pipe := s.pipe.store (c.addr c.i)
          stored := s.stored ++ [c.addr c.i] }.goto q (.write { c with i := c.i + 1 } .loop))
  | .giveUp =>
      if s.pipe.readopen = false ∨ s.killed q = true then
        some (s.goto q (.write c (.release (-1))))
      else some (s.goto q (.write c .wakeup))
  | .wakeup => some ((s.wakeup .nread).goto q (.write c .sleep))
  | .sleep => some (s.release q (.write c .asleep))
  | .asleep => none
  | .woken => s.acquire q (.write c .full)
  | .done => some ((s.wakeup .nread).goto q (.write c (.release c.n)))
  | .release _ => some (s.release q .idle)

/-- `piperead`, one step. -/
def readStep (s : State P) (q : P) (c : ReadCall) : ReadPc → Option (State P)
  | .acquire => s.acquire q (.read c .empty)
  | .empty =>
      some (s.goto q (.read c (if s.pipe.Empty ∧ s.pipe.writeopen = true then .giveUp else .loop)))
  | .giveUp => some (s.goto q (.read c (if s.killed q = true then .release (-1) else .sleep)))
  | .sleep => some (s.release q (.read c .asleep))
  | .asleep => none
  | .woken => s.acquire q (.read c .empty)
  | .loop => some (s.goto q (.read c (if (c.addr.length : ℤ) < c.n then .copy else .done)))
  | .copy =>
      if s.pipe.Empty then some (s.goto q (.read c .done))
      else
        some ({ s with
          pipe := s.pipe.take
          taken := s.taken ++ [s.pipe.next] }.goto q
            (.read { c with addr := c.addr ++ [s.pipe.next] } .loop))
  | .done => some ((s.wakeup .nwrite).goto q (.read c (.release c.addr.length)))
  | .release _ => some ({ s with returned := s.returned ++ c.addr }.release q .idle)

/-- `pipeclose`, one step. -/
def closeStep (s : State P) (q : P) (writable : Bool) : ClosePc → Option (State P)
  | .acquire => s.acquire q (.close writable .mark)
  | .mark =>
      some ({ s with
        pipe := if writable then { s.pipe with writeopen := false }
          else { s.pipe with readopen := false } }.goto q (.close writable .wakeup))
  | .wakeup =>
      some ((s.wakeup (if writable then .nread else .nwrite)).goto q (.close writable .release))
  | .release =>
      some ({ s with
        freed := s.pipe.readopen == false && s.pipe.writeopen == false }.release q .idle)

end State

/-- The steps. -/
inductive Action (P : Type*)
  /-- `pipewrite(p, addr, n)` is called. -/
  | pipewrite (q : P) (addr : ℕ → UInt8) (n : ℤ)
  /-- `piperead(p, addr, n)` is called. -/
  | piperead (q : P) (n : ℤ)
  /-- `pipeclose(p, writable)` is called. -/
  | pipeclose (q : P) (writable : Bool)
  /-- A process in a call takes its next step. -/
  | run (q : P)
  /-- `kill` marks a process and wakes it. -/
  | kill (q : P)

variable {P : Type*} [DecidableEq P]

/-- A process that is in no call of the pipe starts one. -/
def State.call (s : State P) (q : P) (pc : Pc) : Option (State P) :=
  match s.pc q with
  | .idle => some (s.goto q pc)
  | _ => none

/-- One step. -/
def step (s : State P) : Action P → Option (State P)
  | .pipewrite q addr n => s.call q (.write ⟨addr, n, 0⟩ .acquire)
  | .piperead q n => s.call q (.read ⟨n, []⟩ .acquire)
  | .pipeclose q writable => s.call q (.close writable .acquire)
  | .run q =>
      match s.pc q with
      | .idle => none
      | .write c pc => s.writeStep q c pc
      | .read c pc => s.readStep q c pc
      | .close writable pc => s.closeStep q writable pc
  | .kill q =>
      some ({ s with killed := fun r => if r = q then true else s.killed r }.goto q (s.pc q).wake)

end Xv6.PipeRun
