import Xv6.ProcessRun

/-!
# Processes on several CPUs

The process table together with any number of CPUs. A CPU runs `scheduler` or, through
`c->proc`, a process; `ptable.lock` is handed over at `swtch`, so a process gives up its CPU
with the lock held by the scheduler of that CPU, and takes over the lock from the scheduler
when it is dispatched. A step is one stretch of code under the lock, or a stretch of `fork`
that uses only the slot of the child.

Which runnable process a scan of `scheduler` chooses is left open here.
-/

namespace Xv6.Cpus

open PTable
open ProcessRun (ForkPc)

/-- Where a process continues in the code that uses `ptable.lock`. -/
inductive Pc
  /-- Outside this code. -/
  | outside
  /-- In `forkret`, before the first run. -/
  | forkret
  /-- In `yield`, after `sched`. -/
  | yield
  /-- In `sleep` with another lock than `ptable.lock`, after `sched`. -/
  | sleep
  /-- In `sleep` called by `wait`, after `sched`. -/
  | wait
  /-- In `wait`, before a scan, with `ptable.lock` held. -/
  | scan
  /-- In `exit`, in `sched`, which does not return. -/
  | zombie
  deriving DecidableEq

/-- What happens to the family of processes. -/
inductive Event
  /-- `fork` by `parent` returns `pid`, the pid of `child`. -/
  | forked (parent child : Slot) (pid : ℤ)
  /-- A process has called `exit`. -/
  | exited (i : Slot)
  /-- `wait` by `parent` returns `pid`, the pid of `child`. -/
  | reaped (parent child : Slot) (pid : ℤ)
  deriving DecidableEq

/-- The process table, the CPUs, and where the processes are. -/
structure State (C : Type*) where
  /-- `ptable` with its variables. -/
  table : PTable
  /-- `c->proc`. -/
  cpu : C → Option Slot
  /-- The CPU that holds `ptable.lock`. -/
  lock : Option C
  /-- Where each process continues. -/
  pc : Slot → Pc
  /-- The position of each process in `fork`. -/
  forkPc : Slot → ForkPc
  /-- The events so far, the latest first. -/
  log : List Event

/-- The steps; `cur` is the process that runs on the CPU `c`. -/
inductive Action (C : Type*)
  /-- `fork`: the critical section of `allocproc` hands out the slot `np`. -/
  | allocproc (c : C) (cur np : Slot)
  /-- `allocproc`: `kalloc` returns `kstack`, 0 if it fails. -/
  | kalloc (c : C) (cur np : Slot) (kstack : ℕ)
  /-- `fork`: `copyuvm` returns `pgdir`, 0 if it fails. -/
  | copyuvm (c : C) (cur np : Slot) (pgdir : ℕ)
  /-- `fork`: the last critical section. -/
  | forkRunnable (c : C) (cur np : Slot)
  /-- `exit`, up to the scheduler. -/
  | exit (c : C) (cur : Slot)
  /-- `wait`: `ptable.lock` is taken. -/
  | wait (c : C) (cur : Slot)
  /-- `wait`: one scan. -/
  | scan (c : C) (cur : Slot)
  /-- `kill`. -/
  | kill (c : C) (cur : Slot) (pid : ℤ)
  /-- `yield`, up to the scheduler. -/
  | yield (c : C) (cur : Slot)
  /-- `sleep` on a channel outside the table, with another lock than `ptable.lock`, up to the
  scheduler. -/
  | sleep (c : C) (cur : Slot) (addr : ℕ)
  /-- A dispatched process continues after `sched`, or in `forkret`. -/
  | resume (c : C) (cur : Slot)
  /-- `wakeup`, by a process or an interrupt. -/
  | wakeup (addr : ℕ)
  /-- `scheduler` takes `ptable.lock`. -/
  | enter (c : C)
  /-- `scheduler` dispatches a process. -/
  | dispatch (c : C) (i : Slot)
  /-- `scheduler` releases `ptable.lock` after its scan. -/
  | leave (c : C)
  /-- The timer advances `ticks`. -/
  | tick

variable {C : Type*} [DecidableEq C]

namespace State

/-- The process `cur` runs on `c`, outside the code that uses `ptable.lock`. -/
def Runs (s : State C) (c : C) (cur : Slot) : Prop :=
  s.cpu c = some cur ∧ s.pc cur = .outside

/-- The process `cur` runs on `c` and may call a function that takes the free `ptable.lock`. -/
def Calls (s : State C) (c : C) (cur : Slot) : Prop :=
  s.Runs c cur ∧ s.forkPc cur = .idle ∧ s.lock = none

instance (s : State C) (c : C) (cur : Slot) : Decidable (s.Runs c cur) :=
  inferInstanceAs (Decidable (_ ∧ _))

instance (s : State C) (c : C) (cur : Slot) : Decidable (s.Calls c cur) :=
  inferInstanceAs (Decidable (_ ∧ _))

/-- Set the position of a process. -/
def setPc (s : State C) (cur : Slot) (pc : Pc) : State C :=
  { s with pc := fun i => if i = cur then pc else s.pc i }

/-- Set the position of a process in `fork`. -/
def setForkPc (s : State C) (cur : Slot) (pc : ForkPc) : State C :=
  { s with forkPc := fun i => if i = cur then pc else s.forkPc i }

/-- Set `c->proc`. -/
def setCpu (s : State C) (c : C) (i : Option Slot) : State C :=
  { s with cpu := fun d => if d = c then i else s.cpu d }

/-- `sched`, called by `cur` with `ptable.lock` held by its CPU, and `c->proc = 0` in the
scheduler: `cur` will continue at `pc`. -/
def sched (s : State C) (c : C) (cur : Slot) (pc : Pc) : State C :=
  ({ s with lock := some c }.setPc cur pc).setCpu c none

end State

/-- When a step may be taken. -/
def Enabled (s : State C) : Action C → Prop
  | .allocproc c cur np => s.Calls c cur ∧ s.table.allocprocFind = some np
  | .kalloc c cur np _ => s.Runs c cur ∧ s.forkPc cur = .embryo np
  | .copyuvm c cur np _ => s.Runs c cur ∧ s.forkPc cur = .ready np
  | .forkRunnable c cur np => s.Runs c cur ∧ s.forkPc cur = .copied np ∧ s.lock = none
  -- `exit` panics for init
  | .exit c cur => s.Calls c cur ∧ s.table.initproc ≠ some cur
  | .wait c cur | .kill c cur _ | .sleep c cur _ => s.Calls c cur
  | .scan c cur => s.cpu c = some cur ∧ s.pc cur = .scan
  -- the timer may interrupt a process anywhere, also in `fork`
  | .yield c cur => s.Runs c cur ∧ s.lock = none
  | .resume c cur =>
      s.cpu c = some cur ∧
        (s.pc cur = .forkret ∨ s.pc cur = .yield ∨ s.pc cur = .sleep ∨ s.pc cur = .wait)
  | .wakeup _ => s.lock = none
  | .enter c => s.cpu c = none ∧ s.lock = none
  | .dispatch c i => s.cpu c = none ∧ s.lock = some c ∧ (s.table.proc i).state = .runnable
  | .leave c => s.cpu c = none ∧ s.lock = some c
  | .tick => True

instance (s : State C) : ∀ a, Decidable (Enabled s a)
  | .allocproc _ _ _ | .kalloc _ _ _ _ | .copyuvm _ _ _ _ | .forkRunnable _ _ _ | .exit _ _
  | .scan _ _ | .yield _ _ | .resume _ _ | .enter _ | .dispatch _ _ | .leave _ =>
      inferInstanceAs (Decidable (_ ∧ _))
  | .wait c cur | .kill c cur _ | .sleep c cur _ => inferInstanceAs (Decidable (s.Calls c cur))
  | .wakeup _ => inferInstanceAs (Decidable (_ = _))
  | .tick => isTrue trivial

/-- The child that a scan of `wait` stops at. -/
def zombieChild (t : PTable) (cur : Slot) : Option Slot :=
  t.findSlot fun p => p.parent == some cur && p.state == .zombie

/-- The state after a step. -/
def effect (s : State C) : Action C → State C
  | .allocproc _ cur np =>
      { s with table := s.table.allocprocEmbryo np }.setForkPc cur (.embryo np)
  | .kalloc _ cur np kstack =>
      if kstack = 0 then { s with table := s.table.allocprocFail np }.setForkPc cur .idle
      else
        ({ s with table := s.table.allocprocInit np kstack }.setPc np .forkret).setForkPc cur
          (.ready np)
  | .copyuvm _ cur np pgdir =>
      if pgdir = 0 then { s with table := s.table.forkFail np }.setForkPc cur .idle
      else { s with table := s.table.forkCopy cur np pgdir }.setForkPc cur (.copied np)
  | .forkRunnable _ cur np =>
      { s with
        table := s.table.forkRunnable np
        log := .forked cur np (s.table.proc np).pid :: s.log }.setForkPc cur .idle
  | .exit c cur =>
      { s with table := s.table.exit cur, log := .exited cur :: s.log }.sched c cur .zombie
  | .wait c cur => { s with lock := some c }.setPc cur .scan
  | .scan c cur =>
      match s.table.wait cur with
      | .reaped pid t =>
          { s with
            table := t
            lock := none
            log := ((zombieChild s.table cur).map fun i => Event.reaped cur i pid).toList ++ s.log
          }.setPc cur .outside
      | .fail => { s with lock := none }.setPc cur .outside
      | .sleeps t => { s with table := t }.sched c cur .wait
  | .kill _ _ pid => { s with table := (s.table.kill pid).2 }
  | .yield c cur => { s with table := s.table.yield cur }.sched c cur .yield
  | .sleep c cur addr =>
      { s with table := s.table.sleep cur (some (.addr addr)) }.sched c cur .sleep
  | .resume _ cur =>
      match s.pc cur with
      | .sleep => { s with table := s.table.sleepReturn cur, lock := none }.setPc cur .outside
      | .wait => { s with table := s.table.sleepReturn cur }.setPc cur .scan
      | _ => { s with lock := none }.setPc cur .outside
  | .wakeup addr => { s with table := s.table.wakeup1 (some (.addr addr)) }
  | .enter c => { s with lock := some c }
  | .dispatch c i => { s with table := s.table.dispatch i }.setCpu c (some i)
  | .leave _ => { s with lock := none }
  | .tick => { s with table := { s.table with ticks := wrapUint (s.table.ticks + 1) } }

/-- One step. -/
def step (s : State C) (a : Action C) : Option (State C) :=
  if Enabled s a then some (effect s a) else none

/-- The state after `userinit`, which `allocproc` gives the first slot; the CPUs are in
`scheduler`. -/
def boot (kstack pgdir root : ℕ) : State C where
  table := PTable.zero.userinit 0 kstack pgdir root
  cpu := fun _ => none
  lock := none
  pc := fun i => if i = 0 then .forkret else .outside
  forkPc := fun _ => .idle
  log := []

/-- A step is taken when it is enabled, and leads to its effect. -/
theorem step_eq_some {s s' : State C} {a : Action C} :
    step s a = some s' ↔ Enabled s a ∧ effect s a = s' := by
  simp [step]

end Xv6.Cpus
