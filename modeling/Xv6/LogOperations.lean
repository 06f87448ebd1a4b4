import Xv6.Lib.GuardedRun
import Xv6.Log

/-!
# Concurrent log operations

Any number of processes run `begin_op`, `log_write` and `end_op`, with the locks `log.lock`
and `ptable.lock` taken and released step by step, with the sleep of `begin_op` and the two
wakeups of `end_op` as `sleep` and `wakeup` carry them out, and with the commit block by
block. A history, which no step reads, records when operations start and end, what they log,
and what a commit writes.
-/

namespace Xv6.LogOperations

/-- Where a process is in the code of the log. -/
inductive Pc
  /-- In no operation. -/
  | outside
  /-- `begin_op`, at `acquire(&log.lock)`, also as the last step of `sleep`. -/
  | beginAcquire
  /-- `begin_op`, at the head of the loop. -/
  | beginTest
  /-- `begin_op`, at `release(&log.lock)`. -/
  | beginRelease
  /-- `sleep`, at `acquire(&ptable.lock)`. -/
  | sleepAcquire
  /-- `sleep`, at `release(lk)`. -/
  | sleepUnlock
  /-- `sleep`, at the assignments to `chan` and `state`. -/
  | sleepMark
  /-- `sleep`, `SLEEPING` and in `sched`; the scheduler has not released `ptable.lock`. -/
  | sleepSched
  /-- `SLEEPING`. -/
  | asleep
  /-- `RUNNABLE` again. -/
  | runnable
  /-- `sleep`, back from `sched`, at the release of `ptable.lock`. -/
  | resumed
  /-- Between `begin_op` and `end_op`. -/
  | inOp
  /-- `log_write`, at the test of the size. -/
  | logSize (b : ℕ)
  /-- `log_write`, at the test of `log.outstanding`. -/
  | logOutstanding (b : ℕ)
  /-- `log_write`, at `acquire(&log.lock)`. -/
  | logAcquire (b : ℕ)
  /-- `log_write`, at the search for the block. -/
  | logAbsorb (b : ℕ)
  /-- `log_write`, at `release(&log.lock)`. -/
  | logRelease
  /-- `end_op`, at the first `acquire(&log.lock)`. -/
  | endAcquire
  /-- `end_op`, at the decrement of `log.outstanding`. -/
  | endBody
  /-- `wakeup`, at `acquire(&ptable.lock)`. -/
  | wakeAcquire
  /-- `wakeup`, at `wakeup1`. -/
  | wakeBody
  /-- `wakeup`, at `release(&ptable.lock)`. -/
  | wakeRelease
  /-- `end_op`, at the last `release(&log.lock)`. -/
  | endUnlock
  /-- `end_op`, at `release(&log.lock)` with `do_commit` set. -/
  | commitUnlock
  /-- `commit`, at the test of `log.lh.n`. -/
  | commitTest
  /-- `write_log`, with the blocks copied so far. -/
  | writeLog (tail : ℕ) (copied : List ℕ)
  /-- `write_head` of the transaction. -/
  | writeHead (copied : List ℕ)
  /-- `install_trans`. -/
  | installTrans (tail : ℕ)
  /-- `commit`, at `log.lh.n = 0`. -/
  | clear
  /-- `write_head` of the empty header. -/
  | eraseHead
  /-- `end_op`, at `acquire(&log.lock)` after `commit`. -/
  | commitAcquire
  /-- `end_op`, at `log.committing = 0`. -/
  | commitEnd
  /-- `panic("too big a transaction")`. -/
  | panicTooBig
  /-- `panic("log_write outside of trans")`. -/
  | panicOutside
  /-- `panic("log.committing")`. -/
  | panicCommitting
  deriving DecidableEq

/-- What the history records, the latest event first. -/
inductive Event (P : Type*)
  /-- `begin_op` counts the operation. -/
  | enter (p : P)
  /-- `log_write` tests the size of the transaction. -/
  | check (p : P)
  /-- `log_write` enters a block into the header. -/
  | logged (p : P) (b : ℕ)
  /-- `end_op` stops counting the operation. -/
  | leave (p : P)
  /-- `commit` writes the header, with the blocks that `write_log` copied and those named in
  the header. -/
  | commit (p : P) (copied header : List ℕ)
  deriving DecidableEq

/-- `struct log`, the owners of the locks, the places of the processes, and the history. -/
structure State (P : Type*) where
  /-- `log.lh`. -/
  lh : LogHeader
  /-- `log.outstanding`. -/
  outstanding : ℤ
  /-- `log.committing`. -/
  committing : Bool
  /-- The holder of `log.lock`. -/
  logLock : Option P
  /-- The holder of `ptable.lock`, among processes in the code of the log. -/
  ptableLock : Option P
  /-- The places of the processes. -/
  pc : P → Pc
  /-- The events so far, the latest first. -/
  history : List (Event P)

/-- The state after `initlog`. -/
def init (P : Type*) (block : ℕ → ℕ) : State P :=
  ⟨⟨0, block⟩, 0, false, none, none, fun _ => .outside, []⟩

section

variable {P : Type*} [DecidableEq P]

namespace State

/-- Move a process to another place. -/
def goto (s : State P) (p : P) (c : Pc) : State P :=
  { s with pc := fun q => if q = p then c else s.pc q }

/-- `acquire(&log.lock)`, when the lock is free. -/
def lockLog (s : State P) (p : P) (c : Pc) : Option (State P) :=
  if s.logLock = none then some ({ s with logLock := some p }.goto p c) else none

/-- `release(&log.lock)`. -/
def unlockLog (s : State P) (p : P) (c : Pc) : State P := { s with logLock := none }.goto p c

/-- `acquire(&ptable.lock)`, when the lock is free. -/
def lockPtable (s : State P) (p : P) (c : Pc) : Option (State P) :=
  if s.ptableLock = none then some ({ s with ptableLock := some p }.goto p c) else none

/-- `release(&ptable.lock)`. -/
def unlockPtable (s : State P) (p : P) (c : Pc) : State P :=
  { s with ptableLock := none }.goto p c

/-- Add an event to the history. -/
def record (s : State P) (e : Event P) : State P := { s with history := e :: s.history }

/-- The test of `begin_op`: the operation might exhaust the log space. -/
def NoRoom (s : State P) : Prop :=
  (logSize : ℤ) < s.lh.n + (s.outstanding + 1) * maxOpBlocks

instance (s : State P) : Decidable s.NoRoom := inferInstanceAs (Decidable (_ < _))

end State

/-- The next step of a process that is in the code of the log, if it can take one. -/
def advance (log : LogArea) (s : State P) (p : P) : Option (State P) :=
  match s.pc p with
  -- begin_op
  | .beginAcquire => s.lockLog p .beginTest
  | .beginTest =>
      if s.committing = true ∨ s.NoRoom then some (s.goto p .sleepAcquire)
      else
        some (({ s with outstanding := s.outstanding + 1 }.record (.enter p)).goto p .beginRelease)
  | .beginRelease => some (s.unlockLog p .inOp)
  -- sleep
  | .sleepAcquire => s.lockPtable p .sleepUnlock
  | .sleepUnlock => some (s.unlockLog p .sleepMark)
  | .sleepMark => some (s.goto p .sleepSched)
  | .sleepSched => some (s.unlockPtable p .asleep)
  | .runnable => s.lockPtable p .resumed
  | .resumed => some (s.unlockPtable p .beginAcquire)
  -- log_write
  | .logSize b =>
      let s := s.record (.check p)
      if logSize ≤ s.lh.n ∨ (log.size : ℤ) - 1 ≤ s.lh.n then some (s.goto p .panicTooBig)
      else some (s.goto p (.logOutstanding b))
  | .logOutstanding b =>
      if s.outstanding < 1 then some (s.goto p .panicOutside) else some (s.goto p (.logAcquire b))
  | .logAcquire b => s.lockLog p (.logAbsorb b)
  | .logAbsorb b =>
      some (({ s with lh := s.lh.absorb b }.record (.logged p b)).goto p .logRelease)
  | .logRelease => some (s.unlockLog p .inOp)
  -- end_op
  | .endAcquire => s.lockLog p .endBody
  | .endBody =>
      let s := { s with outstanding := s.outstanding - 1 }.record (.leave p)
      if s.committing then some (s.goto p .panicCommitting)
      else if s.outstanding = 0 then some ({ s with committing := true }.goto p .commitUnlock)
      else some (s.goto p .wakeAcquire)
  | .wakeAcquire => s.lockPtable p .wakeBody
  | .wakeBody =>
      some <| State.goto
        { s with pc := fun q => if s.pc q = .asleep then .runnable else s.pc q } p .wakeRelease
  | .wakeRelease => some (s.unlockPtable p .endUnlock)
  | .endUnlock => some (s.unlockLog p .outside)
  -- commit
  | .commitUnlock => some (s.unlockLog p .commitTest)
  | .commitTest => some (s.goto p (if 0 < s.lh.n then .writeLog 0 [] else .commitAcquire))
  | .writeLog tail copied =>
      some <| s.goto p <|
        if tail < s.lh.n then .writeLog (tail + 1) (copied ++ [s.lh.block tail])
        else .writeHead copied
  | .writeHead copied =>
      some ((s.record (.commit p copied s.lh.blocks)).goto p (.installTrans 0))
  | .installTrans tail =>
      some (s.goto p (if tail < s.lh.n then .installTrans (tail + 1) else .clear))
  | .clear => some ({ s with lh := { s.lh with n := 0 } }.goto p .eraseHead)
  | .eraseHead => some (s.goto p .commitAcquire)
  | .commitAcquire => s.lockLog p .commitEnd
  | .commitEnd => some ({ s with committing := false }.goto p .wakeAcquire)
  -- these wait for an action of another kind, or for ever
  | .outside | .asleep | .inOp | .panicTooBig | .panicOutside | .panicCommitting => none

/-- The steps of the system. -/
inductive Action (P : Type*)
  /-- A process calls `begin_op`. -/
  | beginOp (p : P)
  /-- A process in an operation calls `log_write`. -/
  | logWrite (p : P) (b : ℕ)
  /-- A process in an operation calls `end_op`. -/
  | endOp (p : P)
  /-- A process takes the next step of the code. -/
  | advance (p : P)
  /-- `kill` wakes a process up, under `ptable.lock`. -/
  | kill (p : P)

/-- One step. -/
def step (log : LogArea) (s : State P) : Action P → Option (State P)
  | .beginOp p => if s.pc p = .outside then some (s.goto p .beginAcquire) else none
  | .logWrite p b => if s.pc p = .inOp then some (s.goto p (.logSize b)) else none
  | .endOp p => if s.pc p = .inOp then some (s.goto p .endAcquire) else none
  | .advance p => advance log s p
  | .kill p =>
      if s.pc p = .asleep ∧ s.ptableLock = none then some (s.goto p .runnable) else none

end

end Xv6.LogOperations
