import Xv6.Proc
import Xv6.Lib.GuardedRun

/-!
# Interrupts and spin locks

`spinlock.c`, and what `proc.c` does with it when a process gives up its CPU. Each CPU executes
the code of the process it runs, or of its scheduler, one instruction after the other; the code
of a process waits while no CPU runs it. Between the calls that are modelled, a process or an
interrupt handler acquires and releases locks and calls `pushcli` and `popcli` in any order.

An instruction of this model is a call or a statement during which interrupts are off or make no
difference. A panic and a lock that is not free yet are the absence of a step.
-/

namespace Xv6.Interrupts

/-- `struct cpu`, as far as `pushcli` and `popcli` use it, and the interrupt flag. -/
structure Cpu where
  /-- Depth of `pushcli` nesting. -/
  ncli : ℤ
  /-- Were interrupts enabled before `pushcli`? -/
  intena : Bool
  /-- `FL_IF`. -/
  intf : Bool

/-- `pushcli`. -/
def Cpu.pushcli (x : Cpu) : Cpu :=
  { ncli := x.ncli + 1, intena := if x.ncli = 0 then x.intf else x.intena, intf := false }

/-- `popcli`; `none` for its panics. -/
def Cpu.popcli (x : Cpu) : Option Cpu :=
  if x.intf then none
  else
    let ncli := x.ncli - 1
    if ncli < 0 then none
    else some { x with ncli := ncli, intf := decide (ncli = 0) && x.intena }

/-- The locks, with those that `yield`, `sleep` and `exit` name. -/
structure Locks (L : Type*) where
  /-- `ptable.lock`. -/
  ptable : L
  /-- `tickslock`. -/
  tickslock : L
  /-- `cons.lock`. -/
  cons : L
  /-- `tickslock` is not `ptable.lock`. -/
  tickslock_ne : tickslock ≠ ptable
  /-- Nor is `cons.lock`. -/
  cons_ne : cons ≠ ptable

/-- An instruction. -/
inductive Instr (L : Type*)
  /-- `pushcli()`. -/
  | pushcli
  /-- `popcli()`. -/
  | popcli
  /-- `acquire`, from its test of `holding` on. -/
  | take (lk : L)
  /-- `release`. -/
  | release (lk : L)
  /-- `sti()`. -/
  | sti
  /-- `p->state = x`, for the process that runs. -/
  | setState (x : ProcState)
  /-- `sched`, up to `swtch`. -/
  | sched
  /-- `mycpu()->intena = intena`, after `swtch`; what the interrupt flag was before the first
  `pushcli` of the process comes with it. -/
  | restore (intena : Bool) (before : Option Bool)
  /-- The loop of `scheduler` over the process table. -/
  | look
  /-- The end of an interrupt handler, which has released its locks. -/
  | iret
  /-- `panic("zombie exit")`. -/
  | zombieExit

variable {L : Type*} [DecidableEq L]

/-- `acquire`. -/
def acquire (lk : L) : List (Instr L) := [.pushcli, .take lk]

/-- `yield`. -/
def yield (K : Locks L) : List (Instr L) :=
  acquire K.ptable ++ [.setState .runnable, .sched, .release K.ptable]

/-- `sleep`. -/
def sleep (K : Locks L) (lk : L) : List (Instr L) :=
  (if lk = K.ptable then [] else acquire K.ptable ++ [.release lk]) ++
    [.setState .sleeping, .sched] ++
    (if lk = K.ptable then [] else .release K.ptable :: acquire lk)

/-- `exit`, from the point on where it acquires `ptable.lock`. -/
def exit (K : Locks L) : List (Instr L) :=
  acquire K.ptable ++ [.setState .zombie] ++
    acquire K.tickslock ++ [.release K.tickslock] ++
    acquire K.cons ++ [.release K.cons] ++
    [.sched, .zombieExit]

/-- `forkret`, as far as `ptable.lock` is concerned. -/
def forkret (K : Locks L) : List (Instr L) := [.release K.ptable]

/-- A turn of the loop of `scheduler`, up to the loop over the process table. -/
def scheduler (K : Locks L) : List (Instr L) := .sti :: (acquire K.ptable ++ [.look])

/-- Whether none of the calls above is being executed. -/
def betweenCalls : List (Instr L) → Bool
  | [] | .iret :: _ => true
  | _ => false

/-- The CPUs, the locks, the schedulers and the processes. -/
structure State (C T L : Type*) where
  /-- The CPUs. -/
  cpu : C → Cpu
  /-- `lk->cpu` of the locks that are locked. -/
  lock : L → Option C
  /-- The process that a CPU runs; `none` if it runs its scheduler. -/
  proc : C → Option T
  /-- What the schedulers still have to do. -/
  schedulerCode : C → List (Instr L)
  /-- What the processes still have to do. -/
  code : T → List (Instr L)
  /-- `p->state`. -/
  state : T → ProcState
  /-- The number of calls of `pushcli` that have neither been undone nor become part of a lock
  that is held. -/
  opened : C → ℕ
  /-- The interrupt flag before the first `pushcli`; `none` after a switch to a scheduler or to a
  new process. -/
  before : C → Option Bool
  /-- For each time that `ncli` has come back to 0: the flag before the first `pushcli`, and the
  flag then. -/
  restored : List (Option Bool × Bool)

namespace State

variable {C T : Type*} [DecidableEq C] [DecidableEq T] (s : State C T L) (c : C)

/-- Change one CPU. -/
def setCpu (x : Cpu) : State C T L := { s with cpu := Function.update s.cpu c x }

/-- What a CPU executes. -/
def current : List (Instr L) :=
  match s.proc c with
  | none => s.schedulerCode c
  | some t => s.code t

/-- Change what a CPU executes. -/
def setCurrent (code : List (Instr L)) : State C T L :=
  match s.proc c with
  | none => { s with schedulerCode := Function.update s.schedulerCode c code }
  | some t => { s with code := Function.update s.code t code }

/-- `pushcli`. -/
def pushcli : State C T L :=
  { s.setCpu c (s.cpu c).pushcli with
    opened := Function.update s.opened c (s.opened c + 1)
    before := if (s.cpu c).ncli = 0 then Function.update s.before c (some (s.cpu c).intf)
      else s.before }

/-- `popcli`. -/
def popcli : Option (State C T L) :=
  (s.cpu c).popcli.map fun x =>
    { s.setCpu c x with
      restored := if x.ncli = 0 then (s.before c, x.intf) :: s.restored else s.restored }

/-- `holding`, with the CPU after it. -/
def holding (lk : L) : Option (Bool × Cpu) :=
  (s.cpu c).pushcli.popcli.map fun x => (decide (s.lock lk = some c), x)

/-- `acquire`, from its test of `holding` on. -/
def take (lk : L) : Option (State C T L) :=
  (s.holding c lk).bind fun r =>
    if r.1 then none
    else if (s.lock lk).isSome then none
    else some { s.setCpu c r.2 with
      lock := Function.update s.lock lk (some c)
      opened := Function.update s.opened c (s.opened c - 1) }

/-- `release`. -/
def release (lk : L) : Option (State C T L) :=
  (s.holding c lk).bind fun r =>
    if !r.1 then none
    else popcli { s.setCpu c r.2 with lock := Function.update s.lock lk none } c

/-- The tests of `sched`, for the process `t`, and the CPU after them. -/
def schedTests (K : Locks L) (t : T) : Option Cpu :=
  (s.holding c K.ptable).bind fun r =>
    if !r.1 then none
    else if r.2.ncli ≠ 1 then none
    else if s.state t = .running then none
    else if r.2.intf then none
    else some r.2

/-- Execute one instruction, with `rest` to follow. -/
def exec (K : Locks L) (rest : List (Instr L)) : Instr L → Option (State C T L)
  | .pushcli => some ((s.pushcli c).setCurrent c rest)
  | .popcli =>
    (s.popcli c).map fun s =>
      setCurrent { s with opened := Function.update s.opened c (s.opened c - 1) } c rest
  | .take lk => (s.take c lk).map fun s => s.setCurrent c rest
  | .release lk => (s.release c lk).map fun s => s.setCurrent c rest
  | .sti => some ((s.setCpu c { s.cpu c with intf := true }).setCurrent c rest)
  | .setState x =>
    (s.proc c).map fun t =>
      setCurrent { s with state := Function.update s.state t x } c rest
  | .sched =>
    (s.proc c).bind fun t =>
      (s.schedTests c K t).map fun x =>
        { s.setCpu c x with
          code := Function.update s.code t (.restore x.intena (s.before c) :: rest)
          proc := Function.update s.proc c none
          before := Function.update s.before c none }
  | .restore intena before =>
    some (setCurrent { s.setCpu c { s.cpu c with intena := intena } with
      before := Function.update s.before c before } c rest)
  | .iret =>
    if (s.cpu c).ncli = 0 then
      some ((s.setCpu c { s.cpu c with intf := true }).setCurrent c rest)
    else none
  | .look => none
  | .zombieExit => none

/-- The locks that a CPU holds. -/
def held [Fintype L] : Finset L := Finset.univ.filter fun lk => s.lock lk = some c

/-- Whether a CPU is between two of the calls that are modelled. -/
def between : Bool := betweenCalls (s.current c)

/-- A CPU holds no lock and has no `pushcli` to undo. -/
def free [Fintype L] : Prop := s.held c = ∅ ∧ s.opened c = 0

instance [Fintype L] : Decidable (s.free c) := inferInstanceAs (Decidable (_ ∧ _))

end State

/-! ## Steps -/

/-- A step. -/
inductive Action (C T L : Type*)
  /-- A CPU executes its next instruction. -/
  | exec (c : C)
  /-- `acquire` is called. -/
  | acquire (c : C) (lk : L)
  /-- `release` is called, for a lock that is held. -/
  | release (c : C) (lk : L)
  /-- `pushcli` is called. -/
  | pushcli (c : C)
  /-- `popcli` is called, to undo a `pushcli`. -/
  | popcli (c : C)
  /-- Interrupts are enabled or disabled by a trap or the return from one. -/
  | setInterrupts (c : C) (intf : Bool)
  /-- `yield` is called. -/
  | yield (c : C)
  /-- `sleep` is called with a lock. -/
  | sleep (c : C) (lk : L)
  /-- `exit` has come to `ptable.lock`. -/
  | exit (c : C)
  /-- An interrupt. -/
  | interrupt (c : C)
  /-- The next turn of `scheduler`. -/
  | scheduler (c : C)
  /-- The scheduler switches to a process. -/
  | dispatch (c : C) (t : T)
  /-- The scheduler has looked at all processes. -/
  | leave (c : C)
  /-- A process is made runnable by `wakeup1` or `kill`. -/
  | wakeup (c : C) (t : T)
  /-- `allocproc`. -/
  | alloc (c : C) (t : T)
  /-- A new process is made runnable. -/
  | ready (c : C) (t : T)
  /-- `wait` frees a zombie. -/
  | reap (c : C) (t : T)

variable {C T : Type*} [DecidableEq C] [DecidableEq T] [Fintype L]

/-- The steps. `yield`, `sleep` and `exit` are called by processes that hold no spin lock but the
one passed to `sleep` and have undone every `pushcli`. -/
def step (K : Locks L) (s : State C T L) : Action C T L → Option (State C T L)
  | .exec c =>
    match s.current c with
    | [] => none
    | i :: rest => s.exec c K rest i
  | .acquire c lk =>
    if s.between c then some (s.setCurrent c (acquire lk ++ s.current c)) else none
  | .release c lk =>
    if s.between c ∧ s.lock lk = some c then some (s.setCurrent c (.release lk :: s.current c))
    else none
  | .pushcli c => if s.between c then some (s.setCurrent c (.pushcli :: s.current c)) else none
  | .popcli c =>
    if s.between c ∧ 0 < s.opened c then some (s.setCurrent c (.popcli :: s.current c)) else none
  | .setInterrupts c intf =>
    if s.between c ∧ s.free c then some (s.setCpu c { s.cpu c with intf := intf }) else none
  | .yield c =>
    if s.between c ∧ (s.proc c).isSome ∧ s.free c then
      some (s.setCurrent c (yield K ++ s.current c))
    else none
  | .sleep c lk =>
    if s.between c ∧ (s.proc c).isSome ∧ s.held c = {lk} ∧ s.opened c = 0 then
      some (s.setCurrent c (sleep K lk ++ s.current c))
    else none
  | .exit c =>
    if s.between c ∧ (s.proc c).isSome ∧ s.free c then some (s.setCurrent c (exit K)) else none
  | .interrupt c =>
    if (s.cpu c).intf then
      some ((s.setCpu c { s.cpu c with intf := false }).setCurrent c (.iret :: s.current c))
    else none
  | .scheduler c =>
    if s.proc c = none ∧ s.free c then
      match s.schedulerCode c with
      | [] => some (s.setCurrent c (scheduler K))
      | _ => none
    else none
  | .dispatch c t =>
    if s.proc c = none ∧ s.state t = .runnable then
      match s.schedulerCode c with
      | .look :: _ =>
        some { s with
          proc := Function.update s.proc c (some t)
          state := Function.update s.state t .running
          before := Function.update s.before c none }
      | _ => none
    else none
  | .leave c =>
    if s.proc c = none then
      match s.schedulerCode c with
      | .look :: rest => some (s.setCurrent c (.release K.ptable :: rest))
      | _ => none
    else none
  | .wakeup c t =>
    if s.lock K.ptable = some c ∧ s.state t = .sleeping then
      some { s with state := Function.update s.state t .runnable }
    else none
  | .alloc c t =>
    if s.lock K.ptable = some c ∧ s.state t = .unused then
      some { s with
        state := Function.update s.state t .embryo
        code := Function.update s.code t (forkret K) }
    else none
  | .ready c t =>
    if s.lock K.ptable = some c ∧ s.state t = .embryo then
      some { s with state := Function.update s.state t .runnable }
    else none
  | .reap c t =>
    if s.lock K.ptable = some c ∧ s.proc c ≠ some t ∧ s.state t = .zombie then
      some { s with state := Function.update s.state t .unused }
    else none

/-- Each CPU is about to start its scheduler, or to set up the first process. -/
def boot : State C T L where
  cpu := fun _ => ⟨0, false, false⟩
  lock := fun _ => none
  proc := fun _ => none
  schedulerCode := fun _ => []
  code := fun _ => []
  state := fun _ => .unused
  opened := fun _ => 0
  before := fun _ => none
  restored := []

end Xv6.Interrupts
