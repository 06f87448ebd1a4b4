import Xv6.Lib.GuardedRun
import Xv6.Lib.WaitFor

/-!
# Spin locks on several CPUs

The spin locks `ptable.lock`, `tickslock` and `cons.lock`, and what the kernel code does to
them. The code of a kernel path is the list of its steps that matter to these locks; a loop
that runs as often as its data say has the number of its rounds as a parameter. Any number of
CPUs execute such code, one step at a time and in any order; `sched` and the scheduler pass
`ptable.lock` on from thread to thread.
-/

namespace Xv6.SpinLocks

/-- The spin locks. -/
inductive Lock
  /-- `ptable.lock`. -/
  | ptable
  /-- `tickslock`. -/
  | ticks
  /-- `cons.lock`. -/
  | cons
  deriving DecidableEq

instance : Fintype Lock := ⟨{.ptable, .ticks, .cons}, fun l => by cases l <;> decide⟩

/-- The steps of kernel code that matter to the spin locks. -/
inductive Op
  /-- `acquire`. -/
  | acquire (l : Lock)
  /-- `release`. -/
  | release (l : Lock)
  /-- `sched`, called by a process that will run again. -/
  | sched
  /-- `sched`, called by a zombie. -/
  | schedZombie
  /-- The loop of `scheduler` over the process table. -/
  | scan
  /-- `np->state = RUNNABLE` for a new process, which starts in `forkret`. -/
  | spawn
  deriving DecidableEq

/-- Kernel code. -/
abbrev Code := List Op

/-- Code that is run a number of times. -/
def times (n : ℕ) (code : Code) : Code := (List.replicate n code).flatten

/-! ## proc.c -/

/-- `forkret`, which starts with `ptable.lock` held. -/
def forkret : Code := [.release .ptable]

/-- `wakeup`. -/
def wakeup : Code := [.acquire .ptable, .release .ptable]

/-- `sleep(chan, lk)`, with `none` for a lock that is not among the three. -/
def sleep : Option Lock → Code
  | some .ptable => [.sched]
  | some lk => [.acquire .ptable, .release lk, .sched, .release .ptable, .acquire lk]
  | none => [.acquire .ptable, .sched, .release .ptable]

/-- `yield`. -/
def yield : Code := [.acquire .ptable, .sched, .release .ptable]

/-- `kill`. -/
def kill : Code := [.acquire .ptable, .release .ptable]

/-- `allocproc`; without a free slot or a kernel stack it returns before it reads `ticks`. -/
def allocproc (found : Bool) : Code :=
  [.acquire .ptable, .release .ptable] ++ if found then [.acquire .ticks, .release .ticks] else []

/-- `fork`, which gives up if `allocproc` or `copyuvm` fails. -/
def fork (found copied : Bool) : Code :=
  allocproc found ++
    if found && copied then [.acquire .ptable, .spawn, .release .ptable] else []

/-- `cprintf`. -/
def cprintf : Code := [.acquire .cons, .release .cons]

/-- `exit`, from `acquire(&ptable.lock)` on. -/
def exit : Code :=
  [.acquire .ptable, .acquire .ticks, .release .ticks] ++ cprintf ++ [.schedZombie]

/-- `wait`, which sleeps a number of times. -/
def wait (sleeps : ℕ) : Code :=
  .acquire .ptable :: (times sleeps (sleep (some .ptable)) ++ [.release .ptable])

/-- `scheduler`, one round of its outer loop. -/
def scheduler : Code := [.acquire .ptable, .scan, .release .ptable]

/-! ## sysproc.c, console.c and trap.c -/

/-- `sys_sleep`, which sleeps a number of times. -/
def sysSleep (sleeps : ℕ) : Code :=
  .acquire .ticks :: (times sleeps (sleep (some .ticks)) ++ [.release .ticks])

/-- `sys_uptime`. -/
def sysUptime : Code := [.acquire .ticks, .release .ticks]

/-- `consoleread`, which sleeps a number of times. -/
def consoleread (sleeps : ℕ) : Code :=
  .acquire .cons :: (times sleeps (sleep (some .cons)) ++ [.release .cons])

/-- `consolewrite`. -/
def consolewrite : Code := [.acquire .cons, .release .cons]

/-- `consoleintr`: a number of lines are complete, and `procdump` prints a number of times. -/
def consoleintr (lines dumped : ℕ) : Code :=
  .acquire .cons :: (times lines wakeup ++ .release .cons :: times dumped cprintf)

/-- The timer branch of `trap` and the `yield` at its end, of the first CPU or another one,
with a process running or not. -/
def timer (first running : Bool) : Code :=
  (if first then .acquire .ticks :: (wakeup ++ [.release .ticks]) else []) ++
    if running then yield else []

/-- The code that a process runs in the kernel, between points where it holds none of the
locks. -/
inductive Call
  | fork (found copied : Bool)
  | exit
  | wait (sleeps : ℕ)
  | kill
  | sysSleep (sleeps : ℕ)
  | sysUptime
  | consoleread (sleeps : ℕ)
  | consolewrite
  | cprintf
  /-- `sleep` on another lock, in the log, on a pipe, for the disk or a sleep lock. -/
  | sleep
  /-- `wakeup`, from the same places. -/
  | wakeup

/-- The code of a call. -/
def Call.code : Call → Code
  | .fork found copied => SpinLocks.fork found copied
  | .exit => SpinLocks.exit
  | .wait sleeps => SpinLocks.wait sleeps
  | .kill => SpinLocks.kill
  | .sysSleep sleeps => SpinLocks.sysSleep sleeps
  | .sysUptime => SpinLocks.sysUptime
  | .consoleread sleeps => SpinLocks.consoleread sleeps
  | .consolewrite => SpinLocks.consolewrite
  | .cprintf => SpinLocks.cprintf
  | .sleep => SpinLocks.sleep none
  | .wakeup => SpinLocks.wakeup

/-- The interrupts. -/
inductive Interrupt
  | timer
  /-- `kbdintr` and `uartintr`. -/
  | console (lines dumped : ℕ)
  /-- `ideintr`, which wakes up whoever waits for the block. -/
  | ide
  /-- A spurious interrupt. -/
  | spurious

/-- The code of an interrupt, on the first CPU or another one, with a process running or not. -/
def Interrupt.code (first running : Bool) : Interrupt → Code
  | .timer => SpinLocks.timer first running
  | .console lines dumped => consoleintr lines dumped
  | .ide => SpinLocks.wakeup
  | .spurious => SpinLocks.cprintf

/-! ## The machine -/

/-- The state of the CPUs `C`. -/
structure State (C : Type*) where
  /-- What is left of the kernel code that a CPU runs. -/
  code : C → Code
  /-- Whether a CPU runs a process: `c->proc` is set. -/
  proc : C → Bool
  /-- What is left of the kernel code of the threads that have called `sched`. -/
  parked : List Code
  /-- `lk->cpu` of the locks that are held. -/
  owner : Lock → Option C

/-- The state after `userinit`: every CPU is in its scheduler, and the first process is ready
to start. -/
def boot (C : Type*) : State C := ⟨fun _ => [], fun _ => false, [forkret], fun _ => none⟩

variable {C : Type*} [DecidableEq C]

namespace State

/-- The locks that a CPU holds. -/
def held (s : State C) (c : C) : Finset Lock := Finset.univ.filter fun l => s.owner l = some c

/-- A CPU goes on with other code. -/
def goto (s : State C) (c : C) (code : Code) : State C :=
  { s with code := Function.update s.code c code }

/-- A lock is taken or released. -/
def setOwner (s : State C) (l : Lock) (o : Option C) : State C :=
  { s with owner := Function.update s.owner l o }

/-- The CPU goes back from a process to its scheduler, in the loop over the process table. -/
def swtch (s : State C) (c : C) : State C :=
  { s with proc := Function.update s.proc c false }.goto c [.scan, .release .ptable]

end State

/-- Execute the next step of the code of a CPU; `acquire` waits until the lock is free. -/
def run (s : State C) (c : C) : Option (State C) :=
  match s.code c with
  | [] => none
  | .acquire l :: rest =>
      if s.owner l = none then some ((s.setOwner l (some c)).goto c rest) else none
  | .release l :: rest =>
      if s.owner l = some c then some ((s.setOwner l none).goto c rest) else none
  | .sched :: rest => some ({ s with parked := rest :: s.parked }.swtch c)
  | .schedZombie :: _ => some (s.swtch c)
  | .scan :: rest => some (s.goto c rest)
  | .spawn :: rest => some ({ s with parked := forkret :: s.parked }.goto c rest)

/-- In the loop of `scheduler`, switch to one of the threads that have called `sched`. -/
def dispatch (s : State C) (c : C) (i : ℕ) : Option (State C) :=
  match s.code c, s.parked[i]? with
  | .scan :: _, some thread =>
      some ({ s with
        parked := s.parked.eraseIdx i, proc := Function.update s.proc c true }.goto c thread)
  | _, _ => none

/-- The steps of the machine. -/
inductive Action (C : Type*)
  /-- The process on a CPU goes on in the kernel. -/
  | call (c : C) (k : Call)
  /-- An interrupt; interrupts are off while the CPU holds a spin lock. -/
  | interrupt (c : C) (i : Interrupt)
  /-- The scheduler of a CPU starts a round. -/
  | scheduler (c : C)
  /-- A CPU executes a step of its code. -/
  | run (c : C)
  /-- The scheduler of a CPU switches to a thread. -/
  | dispatch (c : C) (i : ℕ)

/-- One step of a machine with the given first CPU. -/
def step (first : C) (s : State C) : Action C → Option (State C)
  | .call c k => if s.proc c = true ∧ s.code c = [] then some (s.goto c k.code) else none
  | .interrupt c i =>
      if s.held c = ∅ then
        some (s.goto c (i.code (decide (c = first)) (s.proc c) ++ s.code c))
      else none
  | .scheduler c =>
      if s.proc c = false ∧ s.code c = [] then some (s.goto c scheduler) else none
  | .run c => run s c
  | .dispatch c i => dispatch s c i

/-- A CPU is at the acquisition of a lock. -/
def State.Wants (s : State C) (c : C) (l : Lock) : Prop :=
  (s.code c).head? = some (.acquire l)

/-- A CPU holds a lock. -/
def State.Holds (s : State C) (c : C) (l : Lock) : Prop := s.owner l = some c

/-- A cycle of CPUs each holding a spin lock that the one before it waits to acquire. -/
def State.Deadlock (s : State C) : Prop := WaitFor.Deadlock s.Wants s.Holds

end Xv6.SpinLocks
