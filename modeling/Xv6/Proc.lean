import Xv6.Param

/-!
# The process table

`struct proc`, the table `ptable` and the sections of `proc.c` that read or change it:
`allocproc`, `userinit`, `fork`, `exit`, `wait`, `wakeup1`, `sleep` and `kill`. Each
definition below is the effect of one stretch of code that runs under `ptable.lock`
(or, for a slot in state `EMBRYO`, on a slot that only its creator uses); which of them may
follow each other is said by the systems built on top.
-/

namespace Xv6

/-- `enum procstate`. -/
inductive ProcState
  | unused | embryo | sleeping | runnable | running | zombie
  deriving DecidableEq, Repr

/-- A slot of `ptable.proc`; a `struct proc *` is an `Option Slot`. -/
abbrev Slot := Fin nproc

instance : NeZero nproc := ⟨by decide⟩

/-- A sleep channel: the address of a slot of the table, or any other kernel address. -/
inductive Chan
  | proc (p : Slot)
  | addr (a : ℕ)
  deriving DecidableEq, Repr

/-- `struct proc`. Pointers to kernel objects are addresses, with 0 for the null pointer. -/
structure Proc where
  /-- Size of process memory in bytes. -/
  sz : ℕ
  /-- Page table. -/
  pgdir : ℕ
  /-- Bottom of the kernel stack. -/
  kstack : ℕ
  /-- Process state. -/
  state : ProcState
  /-- Process ID. -/
  pid : ℤ
  /-- Parent process. -/
  parent : Option Slot
  /-- Trap frame of the current system call. -/
  tf : ℕ
  /-- Saved registers, where `swtch` enters the process. -/
  context : ℕ
  /-- If not null, the channel the process sleeps on. -/
  chan : Option Chan
  /-- If not zero, the process has been killed. -/
  killed : ℤ
  /-- Open files. -/
  ofile : Fin nofile → ℕ
  /-- Current directory. -/
  cwd : ℕ
  /-- Process name. -/
  name : String
  /-- Completed system calls, by number. -/
  syscallCount : Fin maxSyscall → ℤ
  /-- Lottery tickets; laid out right after `syscall_count`. -/
  ticket : ℤ
  /-- Creation time, and from the first dispatch on the response time. -/
  responseTime : ℕ
  /-- Creation time, and from the exit on the turn-around time. -/
  turnAroundTime : ℕ
  /-- Whether the process has been dispatched. -/
  serv : ℤ

/-- A slot of zeroes, as the loader leaves the table. -/
def Proc.zero : Proc where
  sz := 0
  pgdir := 0
  kstack := 0
  state := .unused
  pid := 0
  parent := none
  tf := 0
  context := 0
  chan := none
  killed := 0
  ofile := fun _ => 0
  cwd := 0
  name := ""
  syscallCount := fun _ => 0
  ticket := 0
  responseTime := 0
  turnAroundTime := 0
  serv := 0

/-- `ptable` with the variables of `proc.c` and `trap.c` its sections use. -/
structure PTable where
  /-- `ptable.proc`. -/
  proc : Slot → Proc
  /-- `nextpid`. -/
  nextpid : ℤ
  /-- `initproc`. -/
  initproc : Option Slot
  /-- `ticks`. -/
  ticks : ℕ

namespace PTable

/-- The table as the loader leaves it; `nextpid` starts at 1. -/
def zero : PTable := ⟨fun _ => .zero, 1, none, 0⟩

/-- Change one slot. -/
def modify (t : PTable) (i : Slot) (f : Proc → Proc) : PTable :=
  { t with proc := fun j => if j = i then f (t.proc j) else t.proc j }

/-- Change every slot of the table. -/
def map (t : PTable) (f : Proc → Proc) : PTable := { t with proc := fun j => f (t.proc j) }

@[simp] theorem modify_proc_self (t : PTable) (i : Slot) (f : Proc → Proc) :
    (t.modify i f).proc i = f (t.proc i) := by simp [modify]

theorem modify_proc_of_ne {t : PTable} {i j : Slot} {f : Proc → Proc} (hne : j ≠ i) :
    (t.modify i f).proc j = t.proc j := by simp [modify, hne]

theorem modify_proc (t : PTable) (i j : Slot) (f : Proc → Proc) :
    (t.modify i f).proc j = if j = i then f (t.proc j) else t.proc j := rfl

@[simp] theorem modify_nextpid (t : PTable) (i : Slot) (f : Proc → Proc) :
    (t.modify i f).nextpid = t.nextpid := rfl

@[simp] theorem map_proc (t : PTable) (f : Proc → Proc) (j : Slot) :
    (t.map f).proc j = f (t.proc j) := rfl

/-- The first slot in table order that passes a test: the loops of `proc.c` that leave
`for(p = ptable.proc; p < &ptable.proc[NPROC]; p++)` at the first hit. -/
def findSlot (t : PTable) (test : Proc → Bool) : Option Slot :=
  (List.finRange nproc).find? fun i => test (t.proc i)

/-- The slot a scan stops at passes its test. -/
theorem findSlot_some {t : PTable} {test : Proc → Bool} {i : Slot}
    (hfind : t.findSlot test = some i) : test (t.proc i) = true := by
  unfold findSlot at hfind
  have htest := List.find?_some hfind
  exact htest

/-- A scan that runs through has met no slot that passes its test. -/
theorem findSlot_eq_none {t : PTable} {test : Proc → Bool} :
    t.findSlot test = none ↔ ∀ i, test (t.proc i) = false := by
  simp [findSlot, List.find?_eq_none]

/-- If only one slot passes the test, the scan stops there. -/
theorem findSlot_eq_some_of_unique {t : PTable} {test : Proc → Bool} {i : Slot}
    (htest : test (t.proc i) = true) (hunique : ∀ j, test (t.proc j) = true → j = i) :
    t.findSlot test = some i := by
  cases hfind : t.findSlot test with
  | none => simp [findSlot_eq_none.mp hfind i] at htest
  | some j => rw [hunique j (findSlot_some hfind)]

/-! ## Creating a process -/

/-- `allocproc`, the scan for an `UNUSED` slot. -/
def allocprocFind (t : PTable) : Option Slot := t.findSlot fun p => p.state == .unused

/-- `allocproc` from the label `found` to the release of `ptable.lock`; the counters are
cleared by `init_syscalls_count`. -/
def allocprocEmbryo (t : PTable) (np : Slot) : PTable :=
  { t.modify np fun p =>
      { p with state := .embryo, pid := t.nextpid, syscallCount := fun _ => 0 } with
    nextpid := wrapInt (t.nextpid + 1) }

/-- `allocproc` when `kalloc` returns 0: the slot becomes `UNUSED` again. -/
def allocprocFail (t : PTable) (np : Slot) : PTable :=
  t.modify np fun p => { p with kstack := 0, state := .unused }

/-- `allocproc` from the successful `kalloc` to the end: kernel stack, trap frame (76 bytes),
return address, context (20 bytes), tickets and times. -/
def allocprocInit (t : PTable) (np : Slot) (kstack : ℕ) : PTable :=
  t.modify np fun p =>
    { p with
      kstack := kstack
      tf := kstack + kstackSize - 76
      context := kstack + kstackSize - 76 - 4 - 20
      ticket := 10
      responseTime := t.ticks
      turnAroundTime := t.ticks
      serv := 0 }

/-- `userinit`, run on an empty table: `allocproc`, the first page, the name and the
directory, and the switch to `RUNNABLE`. -/
def userinit (t : PTable) (np : Slot) (kstack pgdir root : ℕ) : PTable :=
  { ((t.allocprocEmbryo np).allocprocInit np kstack).modify np fun p =>
      { p with pgdir := pgdir, sz := 4096, name := "initcode", cwd := root, state := .runnable }
    with initproc := some np }

/-- `fork` when `copyuvm` returns 0: the kernel stack is freed and the slot becomes `UNUSED`. -/
def forkFail (t : PTable) (np : Slot) : PTable :=
  t.modify np fun p => { p with pgdir := 0, kstack := 0, state := .unused }

/-- `fork` from the successful `copyuvm` to the copy of the name. `filedup` and `idup` return
their argument. -/
def forkCopy (t : PTable) (cur np : Slot) (pgdir : ℕ) : PTable :=
  t.modify np fun p =>
    { p with
      pgdir := pgdir
      sz := (t.proc cur).sz
      parent := some cur
      ofile := fun i => if (t.proc cur).ofile i ≠ 0 then (t.proc cur).ofile i else p.ofile i
      cwd := (t.proc cur).cwd
      name := (t.proc cur).name }

/-- `fork`, the last critical section. -/
def forkRunnable (t : PTable) (np : Slot) : PTable :=
  t.modify np fun p => { p with state := .runnable }

/-! ## Sleeping and waking -/

/-- `sleep`, the stretch between taking `ptable.lock` and `sched`. -/
def sleep (t : PTable) (cur : Slot) (chan : Option Chan) : PTable :=
  t.modify cur fun p => { p with chan := chan, state := .sleeping }

/-- `wakeup1`. -/
def wakeup1 (t : PTable) (chan : Option Chan) : PTable :=
  t.map fun p =>
    if p.state = .sleeping ∧ p.chan = chan then { p with state := .runnable } else p

/-- `scheduler`, between the choice of a process and `swtch`: the first dispatch turns the
creation time into the response time. -/
def dispatch (t : PTable) (i : Slot) : PTable :=
  t.modify i fun p =>
    { p with
      state := .running
      responseTime :=
        if p.serv = 0 then wrapUint ((t.ticks : ℤ) - p.responseTime) else p.responseTime
      serv := if p.serv = 0 then 1 else p.serv }

/-- `yield`, the stretch between taking `ptable.lock` and `sched`. -/
def yield (t : PTable) (cur : Slot) : PTable := t.modify cur fun p => { p with state := .runnable }

/-- `sleep`, after `sched` has returned: tidy up. -/
def sleepReturn (t : PTable) (cur : Slot) : PTable := t.modify cur fun p => { p with chan := none }

/-! ## Exit, wait and kill -/

/-- One round of the loop of `exit` that passes abandoned children to init. -/
def exitAdopt (cur : Slot) (t : PTable) (i : Slot) : PTable :=
  if (t.proc i).parent = some cur then
    let t := t.modify i fun p => { p with parent := t.initproc }
    if (t.proc i).state = .zombie then t.wakeup1 (t.initproc.map .proc) else t
  else t

/-- `exit` up to the adoption of the last child: files and directory are given up, the parent
is woken and the children get a new parent. -/
def exitFamily (t : PTable) (cur : Slot) : PTable :=
  let t := t.modify cur fun p => { p with ofile := fun _ => 0, cwd := 0 }
  let t := t.wakeup1 ((t.proc cur).parent.map .proc)
  (List.finRange nproc).foldl (exitAdopt cur) t

/-- `exit` up to the call of `sched`, without the file-system calls it makes before it takes
`ptable.lock`. -/
def exit (t : PTable) (cur : Slot) : PTable :=
  (t.exitFamily cur).modify cur fun p =>
    { p with
      state := .zombie
      turnAroundTime := wrapUint ((t.ticks : ℤ) - p.turnAroundTime) }

/-- What one scan of `wait` ends in. -/
inductive WaitResult
  /-- A zombie child was reaped and its pid is returned. -/
  | reaped (pid : ℤ) (t : PTable)
  /-- There is no child, or the caller was killed; -1 is returned. -/
  | fail
  /-- The caller goes to sleep on its own slot. -/
  | sleeps (t : PTable)

/-- `wait`, one round of its outer loop. -/
def wait (t : PTable) (cur : Slot) : WaitResult :=
  match t.findSlot fun p => p.parent == some cur && p.state == .zombie with
  | some i =>
      .reaped (t.proc i).pid <| t.modify i fun p =>
        { p with kstack := 0, pid := 0, parent := none, name := "", killed := 0, state := .unused }
  | none =>
      if (t.findSlot fun p => p.parent == some cur).isNone ∨ (t.proc cur).killed ≠ 0 then .fail
      else .sleeps (t.sleep cur (some (.proc cur)))

/-- What one scan of `wait` does: it reaps a zombie child, fails, or puts the caller to sleep. -/
theorem wait_spec (t : PTable) (cur : Slot) :
    (∃ pid i, (t.proc i).parent = some cur ∧ (t.proc i).state = .zombie ∧
      t.wait cur = .reaped pid (t.modify i fun p =>
        { p with
          kstack := 0, pid := 0, parent := none, name := "", killed := 0, state := .unused })) ∨
      t.wait cur = .fail ∨ t.wait cur = .sleeps (t.sleep cur (some (.proc cur))) := by
  unfold wait
  cases hfind : t.findSlot fun p => p.parent == some cur && p.state == .zombie with
  | some i =>
    have hchild := findSlot_some hfind
    simp only [Bool.and_eq_true, beq_iff_eq] at hchild
    exact .inl ⟨_, i, hchild.1, hchild.2, rfl⟩
  | none =>
    dsimp only
    split_ifs
    · exact .inr (.inl rfl)
    · exact .inr (.inr rfl)

/-- `kill`: the return value and the table. -/
def kill (t : PTable) (pid : ℤ) : ℤ × PTable :=
  match t.findSlot fun p => p.pid == pid with
  | some i =>
      (0, t.modify i fun p =>
        { p with killed := 1, state := if p.state = .sleeping then .runnable else p.state })
  | none => (-1, t)

/-! ## What wakeups leave alone -/

/-- The second table differs from the first in no pid, counter, `killed` mark, tickets or
`nextpid`, and in states only in that sleeping processes may have been woken. -/
structure Quiet (t t' : PTable) : Prop where
  /-- Pids stay. -/
  pid : ∀ j, (t'.proc j).pid = (t.proc j).pid
  /-- Counters stay. -/
  syscallCount : ∀ j, (t'.proc j).syscallCount = (t.proc j).syscallCount
  /-- Marks stay. -/
  killed : ∀ j, (t'.proc j).killed = (t.proc j).killed
  /-- `nextpid` stays. -/
  nextpid : t'.nextpid = t.nextpid
  /-- States stay or are wakeups. -/
  state : ∀ j, (t'.proc j).state = (t.proc j).state ∨
    (t.proc j).state = .sleeping ∧ (t'.proc j).state = .runnable

theorem Quiet.refl (t : PTable) : Quiet t t :=
  ⟨fun _ => rfl, fun _ => rfl, fun _ => rfl, rfl, fun _ => .inl rfl⟩

theorem Quiet.trans {t t' t'' : PTable} (hfirst : Quiet t t') (hsecond : Quiet t' t'') :
    Quiet t t'' := by
  refine ⟨fun j => (hsecond.pid j).trans (hfirst.pid j),
    fun j => (hsecond.syscallCount j).trans (hfirst.syscallCount j),
    fun j => (hsecond.killed j).trans (hfirst.killed j),
    hsecond.nextpid.trans hfirst.nextpid, fun j => ?_⟩
  rcases hfirst.state j with h1 | ⟨h1, h1'⟩ <;> rcases hsecond.state j with h2 | ⟨h2, h2'⟩
  · exact .inl (h2.trans h1)
  · exact .inr ⟨h1 ▸ h2, h2'⟩
  · exact .inr ⟨h1, h2.trans h1'⟩
  · rw [h1'] at h2
    cases h2

/-- A change of fields that `Quiet` does not mention. -/
theorem quiet_modify {t : PTable} {i : Slot} {f : Proc → Proc}
    (hpid : (f (t.proc i)).pid = (t.proc i).pid)
    (hcount : (f (t.proc i)).syscallCount = (t.proc i).syscallCount)
    (hkilled : (f (t.proc i)).killed = (t.proc i).killed)
    (hstate : (f (t.proc i)).state = (t.proc i).state) : Quiet t (t.modify i f) := by
  refine ⟨fun j => ?_, fun j => ?_, fun j => ?_, rfl, fun j => .inl ?_⟩ <;>
    · rw [modify_proc]
      split_ifs with hj
      · rw [hj]; assumption
      · rfl

/-- `wakeup1` wakes sleepers and does nothing else. -/
theorem quiet_wakeup1 (t : PTable) (chan : Option Chan) : Quiet t (t.wakeup1 chan) := by
  refine ⟨fun j => ?_, fun j => ?_, fun j => ?_, rfl, fun j => ?_⟩
  · simp only [wakeup1, map_proc]; split_ifs <;> rfl
  · simp only [wakeup1, map_proc]; split_ifs <;> rfl
  · simp only [wakeup1, map_proc]; split_ifs <;> rfl
  · by_cases hj : (t.proc j).state = .sleeping ∧ (t.proc j).chan = chan
    · exact .inr ⟨hj.1, by simp [wakeup1, hj]⟩
    · exact .inl (by simp [wakeup1, hj])

/-- One round of the adoption loop wakes at most sleepers. -/
theorem quiet_exitAdopt (cur i : Slot) (t : PTable) : Quiet t (exitAdopt cur t i) := by
  unfold exitAdopt
  split_ifs with hchild
  · dsimp only
    split_ifs with hzombie
    · exact (quiet_modify rfl rfl rfl rfl).trans (quiet_wakeup1 _ _)
    · exact quiet_modify rfl rfl rfl rfl
  · exact .refl t

/-- Up to the change of state, `exit` wakes at most sleepers. -/
theorem quiet_exitFamily (t : PTable) (cur : Slot) : Quiet t (t.exitFamily cur) := by
  unfold exitFamily
  refine List.foldlRecOn (motive := fun t' => Quiet t t') _ _ ?_ ?_
  · exact (quiet_modify rfl rfl rfl rfl).trans (quiet_wakeup1 _ _)
  · intro t' hquiet i _
    exact hquiet.trans (quiet_exitAdopt cur i t')

end PTable

end Xv6
