import Xv6.Lib.GuardedRun
import Xv6.SyscallHistory

/-!
# Runs of the process table

Any number of processes call `fork`, `exit`, `wait`, `kill` and other system calls, are
dispatched, preempted, put to sleep and woken, in any order. A step is one critical section
of `proc.c`; `fork` takes several, with the slot of the child in state `EMBRYO` between them.
-/

namespace Xv6.ProcessRun

open GuardedRun PTable

/-- How far a process is in `fork`, with the slot of the child. -/
inductive ForkPc
  /-- Not in `fork`. -/
  | idle
  /-- In `allocproc`, before `kalloc`. -/
  | embryo (np : Slot)
  /-- `allocproc` has returned. -/
  | ready (np : Slot)
  /-- The address space and the files have been copied. -/
  | copied (np : Slot)
  deriving DecidableEq

/-- The child that a process in `fork` is creating. -/
def ForkPc.child : ForkPc → Option Slot
  | .idle => none
  | .embryo np | .ready np | .copied np => some np

/-- The process table, the history of system calls, and how far the processes are in `fork`. -/
structure State where
  /-- `ptable` with its variables. -/
  table : PTable
  /-- `syscalls_history`. -/
  history : SyscallsHistory
  /-- The position of each process in `fork`. -/
  forkPc : Slot → ForkPc

/-- The steps. -/
inductive Action
  /-- `fork`: the critical section of `allocproc` hands out the slot `np`. -/
  | allocproc (cur np : Slot)
  /-- `allocproc`: `kalloc` returns `kstack`, 0 if it fails. -/
  | kalloc (cur np : Slot) (kstack : ℕ)
  /-- `fork`: `copyuvm` returns `pgdir`, 0 if it fails. -/
  | copyuvm (cur np : Slot) (pgdir : ℕ)
  /-- `fork`: the last critical section. -/
  | forkRunnable (cur np : Slot)
  /-- `exit`. -/
  | exit (cur : Slot)
  /-- `wait`: one scan. -/
  | wait (cur : Slot)
  /-- `kill`. -/
  | kill (cur : Slot) (pid : ℤ)
  /-- A system call returns to `syscall()`, which calls `register_syscall`. -/
  | complete (cur : Slot) (c : Call)
  /-- `scheduler` chooses a process. -/
  | dispatch (i : Slot)
  /-- `yield`. -/
  | yield (i : Slot)
  /-- `sleep` on a channel, from anywhere in the kernel. -/
  | sleep (i : Slot) (chan : Chan)
  /-- `sleep`, after `sched` has returned: the channel is cleared. -/
  | resume (i : Slot)
  /-- `wakeup`. -/
  | wakeup (chan : Chan)
  /-- The timer advances `ticks`. -/
  | tick

/-- A process that is running and not in the middle of `fork`. -/
def State.Calls (s : State) (cur : Slot) : Prop :=
  (s.table.proc cur).state = .running ∧ s.forkPc cur = .idle

instance (s : State) (cur : Slot) : Decidable (s.Calls cur) := inferInstanceAs (Decidable (_ ∧ _))

/-- When a step may be taken. -/
def Enabled (s : State) : Action → Prop
  | .allocproc cur np => s.Calls cur ∧ s.table.allocprocFind = some np
  | .kalloc cur np _ => (s.table.proc cur).state = .running ∧ s.forkPc cur = .embryo np
  | .copyuvm cur np _ => (s.table.proc cur).state = .running ∧ s.forkPc cur = .ready np
  | .forkRunnable cur np => (s.table.proc cur).state = .running ∧ s.forkPc cur = .copied np
  -- `exit` panics for init
  | .exit cur => s.Calls cur ∧ s.table.initproc ≠ some cur
  | .wait cur | .kill cur _ => s.Calls cur
  | .complete cur c =>
      s.Calls cur ∧ c.pid = (s.table.proc cur).pid ∧ Dispatchable c.id ∧ getName c.id = some c.name
  | .dispatch i => (s.table.proc i).state = .runnable
  | .yield i | .sleep i _ | .resume i => (s.table.proc i).state = .running
  | .wakeup _ | .tick => True

instance (s : State) : ∀ a, Decidable (Enabled s a)
  | .allocproc _ _ | .kalloc _ _ _ | .copyuvm _ _ _ | .forkRunnable _ _ | .exit _
  | .complete _ _ => inferInstanceAs (Decidable (_ ∧ _))
  | .wait cur | .kill cur _ => inferInstanceAs (Decidable (s.Calls cur))
  | .dispatch _ | .yield _ | .sleep _ _ | .resume _ => inferInstanceAs (Decidable (_ = _))
  | .wakeup _ | .tick => isTrue trivial

/-- Set the position of a process in `fork`. -/
def State.setForkPc (s : State) (cur : Slot) (pc : ForkPc) : State :=
  { s with forkPc := fun i => if i = cur then pc else s.forkPc i }

@[simp] theorem State.setForkPc_table (s : State) (cur : Slot) (pc : ForkPc) :
    (s.setForkPc cur pc).table = s.table := rfl

/-- The state after a step. -/
def effect (s : State) : Action → State
  | .allocproc cur np =>
      { s with table := s.table.allocprocEmbryo np }.setForkPc cur (.embryo np)
  | .kalloc cur np kstack =>
      if kstack = 0 then { s with table := s.table.allocprocFail np }.setForkPc cur .idle
      else { s with table := s.table.allocprocInit np kstack }.setForkPc cur (.ready np)
  | .copyuvm cur np pgdir =>
      if pgdir = 0 then { s with table := s.table.forkFail np }.setForkPc cur .idle
      else { s with table := s.table.forkCopy cur np pgdir }.setForkPc cur (.copied np)
  | .forkRunnable cur np => { s with table := s.table.forkRunnable np }.setForkPc cur .idle
  | .exit cur => { s with table := s.table.exit cur }
  | .wait cur =>
      match s.table.wait cur with
      | .reaped _ t => { s with table := t }
      | .fail => s
      | .sleeps t => { s with table := t }
  | .kill _ pid => { s with table := (s.table.kill pid).2 }
  | .complete _ c =>
      { s with
        history := (registerSyscall (s.history, s.table) c).1
        table := (registerSyscall (s.history, s.table) c).2 }
  | .dispatch i => { s with table := s.table.dispatch i }
  | .yield i => { s with table := s.table.yield i }
  | .sleep i chan => { s with table := s.table.sleep i (some chan) }
  | .resume i => { s with table := s.table.sleepReturn i }
  | .wakeup chan => { s with table := s.table.wakeup1 (some chan) }
  | .tick => { s with table := { s.table with ticks := wrapUint (s.table.ticks + 1) } }

/-- One step. -/
def step (s : State) (a : Action) : Option State := if Enabled s a then some (effect s a) else none

/-- The state after `userinit`, which `allocproc` gives the first slot. -/
def boot (kstack pgdir root : ℕ) : State :=
  ⟨PTable.zero.userinit 0 kstack pgdir root, .init, fun _ => .idle⟩

/-- A step is taken when it is enabled, and leads to its effect. -/
theorem step_eq_some {s s' : State} {a : Action} :
    step s a = some s' ↔ Enabled s a ∧ effect s a = s' := by
  simp [step]

end Xv6.ProcessRun
