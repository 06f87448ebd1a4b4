import Xv6.Proc
import Xv6.Lib.GuardedRun

/-!
# Sleep locks

Any number of processes that call `acquiresleep` and `releasesleep` on any number of sleep
locks, and `sleep`, `wakeup` and `kill` for any other reason. Each call is a walk through the
positions of its code, and a step takes a spin lock, gives one up, or is a stretch of code
that runs under one. A process that has called `sched` goes on when a scheduler finds it
`RUNNABLE`; it then holds `ptable.lock`, which the scheduler has taken for it.

An interrupt handler that calls `wakeup` counts as a process of its own.
-/

namespace Xv6.SleepLocks

/-- `struct sleeplock` without its spin lock and its name. -/
structure SleepLock where
  /-- Is the lock held? -/
  locked : ℕ
  /-- Process holding lock. -/
  pid : ℤ
deriving DecidableEq

/-- The spin locks. -/
inductive Spin (ι κ : Type*)
  /-- `ptable.lock`. -/
  | ptable
  /-- `lk->lk` of a sleep lock. -/
  | lk (l : ι)
  /-- Any other spin lock. -/
  | other (k : κ)
  deriving DecidableEq

/-- The channels. -/
inductive Chan (ι κ : Type*)
  /-- The address of a sleep lock, on which only `acquiresleep` sleeps. -/
  | lk (l : ι)
  /-- Any other address. -/
  | other (k : κ)
  deriving DecidableEq

/-- Positions in `sleep`. -/
inductive SleepPc
  /-- Before `acquire(&ptable.lock)`. -/
  | acquire
  /-- At `release(lk)`. -/
  | release
  /-- Before `chan` and `state` are set. -/
  | mark
  /-- At `sched`. -/
  | sched
  /-- In `sched`, off the CPU. -/
  | asleep
  /-- Back from `sched`, before `chan` is cleared. -/
  | tidy
  /-- At `release(&ptable.lock)`. -/
  | awake
  /-- Before `acquire(lk)`. -/
  | reacquire
  deriving DecidableEq

/-- Positions in `wakeup`. -/
inductive WakePc
  /-- Before `acquire`. -/
  | acquire
  /-- At `wakeup1`. -/
  | wake
  /-- At `release`. -/
  | release
  deriving DecidableEq

/-- Positions in `acquiresleep`. -/
inductive AcquirePc
  /-- Before `acquire`. -/
  | acquire
  /-- At the test of `locked`. -/
  | test
  /-- In `sleep`. -/
  | sleep (pc : SleepPc)
  /-- Before `locked` and `pid` are set. -/
  | lock
  /-- At `release`. -/
  | release
  deriving DecidableEq

/-- Positions in `releasesleep`. -/
inductive ReleasePc
  /-- Before `acquire`. -/
  | acquire
  /-- Before `locked` and `pid` are cleared. -/
  | unlock
  /-- In `wakeup`. -/
  | wakeup (pc : WakePc)
  /-- At `release`. -/
  | release
  deriving DecidableEq

/-- Positions of other code that sleeps. -/
inductive WaitPc
  /-- Before it takes the lock it passes to `sleep`. -/
  | acquire
  /-- In `sleep`. -/
  | sleep (pc : SleepPc)
  /-- Before it gives up that lock. -/
  | release
  deriving DecidableEq

/-- Positions in `kill`. -/
inductive KillPc
  /-- Before `acquire`. -/
  | acquire
  /-- At the search for the process. -/
  | mark
  /-- At `release`. -/
  | release
  deriving DecidableEq

/-- What a process does. -/
inductive Pc (P ι κ : Type*)
  /-- None of the calls below. -/
  | idle
  /-- In `acquiresleep`. -/
  | acquiresleep (l : ι) (pc : AcquirePc)
  /-- In `releasesleep`. -/
  | releasesleep (l : ι) (pc : ReleasePc)
  /-- In code that sleeps for another reason, with the spin lock it passes; `wait` passes
  `ptable.lock`. -/
  | wait (chan : κ) (lk : Option κ) (pc : WaitPc)
  /-- In a `wakeup` that `releasesleep` has not called. -/
  | wakeup (chan : Chan ι κ) (pc : WakePc)
  /-- In `kill`; `target` is the process whose slot has the pid. -/
  | kill (target : Option P) (pc : KillPc)
  deriving DecidableEq

/-- The sleep locks, the spin locks, and what the process table says of each process. -/
structure State (P ι κ : Type*) where
  /-- The sleep locks. -/
  lock : ι → SleepLock
  /-- The holders of the spin locks. -/
  spin : Spin ι κ → Option P
  /-- Process state. -/
  state : P → ProcState
  /-- If not null, the channel the process sleeps on. -/
  chan : P → Option (Chan ι κ)
  /-- Whether the process has been killed. -/
  killed : P → Bool
  /-- Process ID. -/
  pid : P → ℤ
  /-- Where each process is. -/
  pc : P → Pc P ι κ
  /-- Whether a process has completed `acquiresleep` and not yet `releasesleep`. -/
  holds : P → ι → Bool

variable {P ι κ : Type*} [DecidableEq P] [DecidableEq ι] [DecidableEq κ]

namespace State

/-- Move one process. -/
def goto (s : State P ι κ) (q : P) (pc : Pc P ι κ) : State P ι κ :=
  { s with pc := Function.update s.pc q pc }

/-- `acquire`, possible when the lock is free, and the next position. -/
def acquire (s : State P ι κ) (k : Spin ι κ) (q : P) (pc : Pc P ι κ) : Option (State P ι κ) :=
  if s.spin k = none then some ({ s with spin := Function.update s.spin k (some q) }.goto q pc)
  else none

/-- `release` and the next position. -/
def release (s : State P ι κ) (k : Spin ι κ) (q : P) (pc : Pc P ι κ) : State P ι κ :=
  { s with spin := Function.update s.spin k none }.goto q pc

/-- `wakeup1`. -/
def wakeup1 (s : State P ι κ) (chan : Chan ι κ) : State P ι κ :=
  { s with
    state := fun p =>
      if s.state p = .sleeping ∧ s.chan p = some chan then .runnable else s.state p }

/-- The body of `kill` for the process it finds. -/
def mark (s : State P ι κ) : Option P → State P ι κ
  | none => s
  | some p =>
      { s with
        killed := Function.update s.killed p true
        state := Function.update s.state p
          (if s.state p = .sleeping then .runnable else s.state p) }

/-- The first position in `sleep(chan, lk)`. -/
def sleepEntry (lk : Spin ι κ) : SleepPc := if lk ≠ Spin.ptable then .acquire else .mark

/-- `sleep(chan, lk)`, one step; `here` is a position in the call and `back` the one after. -/
def sleepStep (s : State P ι κ) (q : P) (chan : Chan ι κ) (lk : Spin ι κ)
    (here : SleepPc → Pc P ι κ) (back : Pc P ι κ) : SleepPc → Option (State P ι κ)
  | .acquire => s.acquire .ptable q (here .release)
  | .release => some (s.release lk q (here .mark))
  | .mark =>
      some ({ s with
        chan := Function.update s.chan q (some chan)
        state := Function.update s.state q .sleeping }.goto q (here .sched))
  | .sched => some (s.release .ptable q (here .asleep))
  | .asleep =>
      if s.state q = .runnable then
        { s with state := Function.update s.state q .running }.acquire .ptable q (here .tidy)
      else none
  | .tidy =>
      some ({ s with chan := Function.update s.chan q none }.goto q
        (if lk ≠ Spin.ptable then here .awake else back))
  | .awake => some (s.release .ptable q (here .reacquire))
  | .reacquire => s.acquire lk q back

/-- `wakeup(chan)`, one step; `here` is a position in the call and `back` the one after. -/
def wakeStep (s : State P ι κ) (q : P) (chan : Chan ι κ)
    (here : WakePc → Pc P ι κ) (back : Pc P ι κ) : WakePc → Option (State P ι κ)
  | .acquire => s.acquire .ptable q (here .wake)
  | .wake => some ((s.wakeup1 chan).goto q (here .release))
  | .release => some (s.release .ptable q back)

/-- `acquiresleep(lk)`, one step. -/
def acquiresleepStep (s : State P ι κ) (q : P) (l : ι) : AcquirePc → Option (State P ι κ)
  | .acquire => s.acquire (.lk l) q (.acquiresleep l .test)
  | .test =>
      some (s.goto q (.acquiresleep l
        (if (s.lock l).locked ≠ 0 then .sleep (sleepEntry (.lk l : Spin ι κ)) else .lock)))
  | .sleep pc =>
      s.sleepStep q (.lk l) (.lk l) (fun pc => .acquiresleep l (.sleep pc))
        (.acquiresleep l .test) pc
  | .lock =>
      some ({ s with lock := Function.update s.lock l ⟨1, s.pid q⟩ }.goto q
        (.acquiresleep l .release))
  | .release =>
      some ({ s with
        holds := Function.update s.holds q (Function.update (s.holds q) l true) }.release
          (.lk l) q .idle)

/-- `releasesleep(lk)`, one step. -/
def releasesleepStep (s : State P ι κ) (q : P) (l : ι) : ReleasePc → Option (State P ι κ)
  | .acquire => s.acquire (.lk l) q (.releasesleep l .unlock)
  | .unlock =>
      some ({ s with lock := Function.update s.lock l ⟨0, 0⟩ }.goto q
        (.releasesleep l (.wakeup .acquire)))
  | .wakeup pc =>
      s.wakeStep q (.lk l) (fun pc => .releasesleep l (.wakeup pc)) (.releasesleep l .release) pc
  | .release =>
      some ({ s with
        holds := Function.update s.holds q (Function.update (s.holds q) l false) }.release
          (.lk l) q .idle)

/-- The spin lock of other code that sleeps. -/
def waitLock : Option κ → Spin ι κ
  | none => .ptable
  | some k => .other k

/-- Other code that sleeps, one step. -/
def waitStep (s : State P ι κ) (q : P) (chan : κ) (lk : Option κ) :
    WaitPc → Option (State P ι κ)
  | .acquire =>
      s.acquire (waitLock lk) q (.wait chan lk (.sleep (sleepEntry (waitLock lk : Spin ι κ))))
  | .sleep pc =>
      s.sleepStep q (.other chan) (waitLock lk) (fun pc => .wait chan lk (.sleep pc))
        (.wait chan lk .release) pc
  | .release => some (s.release (waitLock lk) q .idle)

/-- `kill`, one step. -/
def killStep (s : State P ι κ) (q : P) (target : Option P) : KillPc → Option (State P ι κ)
  | .acquire => s.acquire .ptable q (.kill target .mark)
  | .mark => some ((s.mark target).goto q (.kill target .release))
  | .release => some (s.release .ptable q .idle)

/-- A process that is in no call starts one. -/
def call (s : State P ι κ) (q : P) (pc : Pc P ι κ) : Option (State P ι κ) :=
  match s.pc q with
  | .idle => some (s.goto q pc)
  | _ => none

end State

/-- The steps. -/
inductive Action (P ι κ : Type*)
  /-- `acquiresleep(lk)` is called. -/
  | acquiresleep (q : P) (l : ι)
  /-- `releasesleep(lk)` is called, by a process that holds the lock. -/
  | releasesleep (q : P) (l : ι)
  /-- Code is entered that sleeps for another reason. -/
  | wait (q : P) (chan : κ) (lk : Option κ)
  /-- `wakeup(chan)` is called. -/
  | wakeup (q : P) (chan : Chan ι κ)
  /-- `kill` is called. -/
  | kill (q : P) (target : Option P)
  /-- A process in a call takes its next step. -/
  | run (q : P)

/-- One step. -/
def step (s : State P ι κ) : Action P ι κ → Option (State P ι κ)
  | .acquiresleep q l => s.call q (.acquiresleep l .acquire)
  | .releasesleep q l => if s.holds q l = true then s.call q (.releasesleep l .acquire) else none
  | .wait q chan lk => s.call q (.wait chan lk .acquire)
  | .wakeup q chan => s.call q (.wakeup chan .acquire)
  | .kill q target => s.call q (.kill target .acquire)
  | .run q =>
      match s.pc q with
      | .idle => none
      | .acquiresleep l pc => s.acquiresleepStep q l pc
      | .releasesleep l pc => s.releasesleepStep q l pc
      | .wait chan lk pc => s.waitStep q chan lk pc
      | .wakeup chan pc => s.wakeStep q chan (.wakeup chan) .idle pc
      | .kill target pc => s.killStep q target pc

/-- The sleep locks after `initsleeplock`; no process is in a call and none is asleep. -/
structure Initial (s : State P ι κ) : Prop where
  /-- The sleep locks are free. -/
  lock : ∀ l, s.lock l = ⟨0, 0⟩
  /-- The spin locks are free. -/
  spin : ∀ k, s.spin k = none
  /-- No process sleeps. -/
  state : ∀ q, s.state q ≠ .sleeping
  /-- No process is in a call. -/
  pc : ∀ q, s.pc q = .idle
  /-- No process holds a sleep lock. -/
  holds : ∀ q l, s.holds q l = false

end Xv6.SleepLocks
