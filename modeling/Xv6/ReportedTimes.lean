import Xv6.ProcessTable

/-!
# The times a process reports

`allocproc` stores the tick count in `response_time` and `turn_around_time`; the first
dispatch replaces the former by a difference, and `exit` the latter, before it prints both.
The tick count wraps modulo `2 ^ 32`, and `cprintf` prints a `%d` argument as an `int`. Over
every run of the processes on several CPUs, the file settles what is printed.
-/

namespace Xv6.ReportedTimes

open Cpus GuardedRun PTable
open ProcessRun (ForkPc)

variable {C : Type*} [DecidableEq C]

/-! ## What a run has done to a slot -/

/-- The timer advances `ticks`. -/
def isTick : Action C → Bool
  | .tick => true
  | _ => false

/-- `allocproc` initialises the slot. -/
def creates (i : Slot) : Action C → Bool
  | .kalloc _ _ np kstack => np = i ∧ kstack ≠ 0
  | _ => false

/-- `scheduler` dispatches the process of the slot. -/
def dispatches (i : Slot) : Action C → Bool
  | .dispatch _ j => j = i
  | _ => false

/-- The process of the slot exits. -/
def exits (i : Slot) : Action C → Bool
  | .exit _ cur => cur = i
  | _ => false

/-- The number of ticks of a run; the latest step comes first. -/
def tickCount (trace : List (Action C)) : ℕ := trace.countP isTick

/-- The number of ticks up to the latest `allocproc` of a slot. -/
def allocTick (i : Slot) : List (Action C) → ℕ
  | [] => 0
  | a :: trace => if creates i a then tickCount trace else allocTick i trace

/-- The number of ticks up to the first dispatch since then, if there is one. -/
def dispatchTick (i : Slot) : List (Action C) → Option ℕ
  | [] => none
  | a :: trace =>
      if creates i a then none
      else if dispatches i a then (dispatchTick i trace).or (some (tickCount trace))
      else dispatchTick i trace

/-- What `cprintf` prints for a `uint` by `%d`: `printint` takes an `int`. -/
def printed (x : ℕ) : ℤ := wrapInt x

/-! ## Steps -/

/-- The fields of a slot that hold times. -/
structure Times where
  /-- `response_time`. -/
  response : ℕ
  /-- `turn_around_time`. -/
  turn : ℕ
  /-- `serv`. -/
  serv : ℤ

/-- The times of a slot. -/
def times (p : Proc) : Times := ⟨p.responseTime, p.turnAroundTime, p.serv⟩

/-- What a step makes of the times of a slot. -/
def stepTimes (a : Action C) (ticks : ℕ) (i : Slot) (old : Times) : Times :=
  if creates i a then ⟨ticks, ticks, 0⟩
  else if dispatches i a ∧ old.serv = 0 then
    { old with response := wrapUint ((ticks : ℤ) - old.response), serv := 1 }
  else if exits i a then { old with turn := wrapUint ((ticks : ℤ) - old.turn) }
  else old

variable {s : State C} {t t' : PTable} {i cur : Slot}

/-- A change of one slot that keeps its times keeps all times. -/
theorem times_modify {f : Proc → Proc} (hf : times (f (t.proc cur)) = times (t.proc cur)) :
    times ((t.modify cur f).proc i) = times (t.proc i) := by
  rw [modify_proc]
  split_ifs with hi
  · rw [hi, hf]
  · rfl

/-- `wakeup1` changes no times. -/
theorem times_wakeup1 (t : PTable) (chan : Option Chan) :
    times ((t.wakeup1 chan).proc i) = times (t.proc i) := by
  simp only [wakeup1, map_proc]
  split_ifs <;> rfl

/-- Giving a child to init changes no times. -/
theorem times_exitAdopt (cur j : Slot) (t : PTable) :
    times ((exitAdopt cur t j).proc i) = times (t.proc i) := by
  have hparent : times ((t.modify j fun p => { p with parent := t.initproc }).proc i) =
      times (t.proc i) := by
    apply times_modify
    rfl
  unfold exitAdopt
  split_ifs with hchild
  · dsimp only
    split_ifs
    · rw [times_wakeup1, hparent]
    · exact hparent
  · rfl

/-- Giving children to init changes no times. -/
theorem times_foldl_exitAdopt (cur : Slot) (l : List Slot) (t : PTable) :
    times ((l.foldl (exitAdopt cur) t).proc i) = times (t.proc i) := by
  induction l generalizing t with
  | nil => rfl
  | cons j l ih => exact (ih _).trans (times_exitAdopt cur j t)

/-- What `exit` does to the family changes no times. -/
theorem times_exitFamily (t : PTable) (cur : Slot) :
    times ((t.exitFamily cur).proc i) = times (t.proc i) := by
  have hclosed : times ((t.modify cur fun p => { p with ofile := fun _ => 0, cwd := 0 }).proc i) =
      times (t.proc i) := by
    apply times_modify
    rfl
  unfold exitFamily
  rw [times_foldl_exitAdopt, times_wakeup1, hclosed]

/-- `kill` changes no times. -/
theorem times_kill (t : PTable) (pid : ℤ) :
    times ((t.kill pid).2.proc i) = times (t.proc i) := by
  unfold kill
  split
  · dsimp only
    apply times_modify
    rfl
  · rfl

/-- A scan of `wait` keeps the times, also of the slot it frees. -/
theorem times_scan (s : State C) (c : C) (cur i : Slot) :
    times ((effect s (.scan c cur)).table.proc i) = times (s.table.proc i) := by
  simp only [effect]
  rcases wait_spec s.table cur with ⟨pid, j, -, -, hwait⟩ | hwait | hwait
  · simp only [hwait, State.setPc]
    apply times_modify
    rfl
  · simp only [hwait, State.setPc]
  · simp only [hwait, State.sched, State.setPc, State.setCpu, PTable.sleep]
    apply times_modify
    rfl

/-- The step lemma: what a step does to the times of each slot. -/
theorem times_effect (s : State C) (a : Action C) (i : Slot) :
    times ((effect s a).table.proc i) = stepTimes a s.table.ticks i (times (s.table.proc i)) := by
  cases a with
  | kalloc c cur np kstack =>
    by_cases hk : kstack = 0
    · have hkeep : times ((s.table.allocprocFail np).proc i) = times (s.table.proc i) :=
        times_modify rfl
      simpa [effect, stepTimes, creates, dispatches, exits, hk, State.setForkPc] using hkeep
    · simp only [effect, stepTimes, creates, dispatches, exits, hk, if_false, State.setForkPc,
        State.setPc, allocprocInit, modify_proc]
      by_cases hi : i = np
      · simp [hi, times, hk]
      · simp [hi, Ne.symm hi]
  | dispatch c j =>
    simp only [effect, stepTimes, creates, dispatches, exits, State.setCpu, PTable.dispatch,
      modify_proc]
    by_cases hi : i = j
    · by_cases hserv : (s.table.proc i).serv = 0
      · simp [← hi, times, hserv]
      · simp [← hi, times, hserv]
    · simp [hi, Ne.symm hi]
  | exit c cur =>
    simp only [effect, stepTimes, creates, dispatches, exits, State.sched, State.setPc,
      State.setCpu, PTable.exit, modify_proc]
    have hfamily := times_exitFamily (i := i) s.table cur
    by_cases hi : i = cur
    · simp only [← hi] at hfamily ⊢
      simp only [times, Times.mk.injEq] at hfamily
      simp [times, hfamily]
    · simpa [hi, Ne.symm hi] using hfamily
  | copyuvm c cur np pgdir =>
    have hfail : times ((s.table.forkFail np).proc i) = times (s.table.proc i) :=
      times_modify rfl
    have hcopy : times ((s.table.forkCopy cur np pgdir).proc i) = times (s.table.proc i) :=
      times_modify rfl
    by_cases hp : pgdir = 0
    · simpa [effect, stepTimes, creates, dispatches, exits, hp, State.setForkPc] using hfail
    · simpa [effect, stepTimes, creates, dispatches, exits, hp, State.setForkPc] using hcopy
  | scan c cur => exact times_scan s c cur i
  | resume c cur =>
    have hreturn : times ((s.table.sleepReturn cur).proc i) = times (s.table.proc i) :=
      times_modify rfl
    simp only [effect, stepTimes, creates, dispatches, exits]
    cases s.pc cur <;> first | exact hreturn | rfl
  | allocproc c cur np =>
    have hkeep : times ((s.table.allocprocEmbryo np).proc i) = times (s.table.proc i) := by
      simp only [allocprocEmbryo]
      apply times_modify
      rfl
    exact hkeep
  | forkRunnable c cur np =>
    have hkeep : times ((s.table.forkRunnable np).proc i) = times (s.table.proc i) :=
      times_modify rfl
    exact hkeep
  | yield c cur =>
    have hkeep : times ((s.table.yield cur).proc i) = times (s.table.proc i) := times_modify rfl
    exact hkeep
  | sleep c cur addr =>
    have hkeep : times ((s.table.sleep cur (some (.addr addr))).proc i) =
        times (s.table.proc i) := times_modify rfl
    exact hkeep
  | kill c cur pid => exact times_kill s.table pid
  | wakeup addr => exact times_wakeup1 s.table _
  | wait _ _ | enter _ | leave _ | tick => rfl

section

variable {a : Action C}

/-- A process starts with the ticks of its creation, and has not been dispatched. -/
theorem times_created (hcreates : creates i a = true) :
    times ((effect s a).table.proc i) = ⟨s.table.ticks, s.table.ticks, 0⟩ := by
  rw [times_effect, stepTimes, if_pos hcreates]

/-- At the first dispatch the response time is taken. -/
theorem response_dispatched (hcreates : ¬ creates i a = true) (hdispatches : dispatches i a = true)
    (hserv : (s.table.proc i).serv = 0) :
    ((effect s a).table.proc i).serv = 1 ∧ ((effect s a).table.proc i).responseTime =
      wrapUint ((s.table.ticks : ℤ) - (s.table.proc i).responseTime) := by
  have htimes := times_effect s a i
  rw [stepTimes, if_neg hcreates, if_pos ⟨hdispatches, hserv⟩] at htimes
  simp only [times, Times.mk.injEq] at htimes
  exact ⟨htimes.2.2, htimes.1⟩

/-- The response time is taken once. -/
theorem response_kept (hcreates : ¬ creates i a = true)
    (hold : dispatches i a = true → (s.table.proc i).serv ≠ 0) :
    ((effect s a).table.proc i).serv = (s.table.proc i).serv ∧
      ((effect s a).table.proc i).responseTime = (s.table.proc i).responseTime := by
  have htimes := times_effect s a i
  rw [stepTimes, if_neg hcreates, if_neg fun h => hold h.1 h.2] at htimes
  split_ifs at htimes <;>
    · simp only [times, Times.mk.injEq] at htimes
      exact ⟨htimes.2.2, htimes.1⟩

/-- The turnaround time is taken at the exit only. -/
theorem turn_kept (hcreates : ¬ creates i a = true) (hexits : ¬ exits i a = true) :
    ((effect s a).table.proc i).turnAroundTime = (s.table.proc i).turnAroundTime := by
  have htimes := times_effect s a i
  rw [stepTimes, if_neg hcreates, if_neg hexits] at htimes
  split_ifs at htimes <;>
    · simp only [times, Times.mk.injEq] at htimes
      exact htimes.2.1

/-- At the exit the turnaround time is taken. -/
theorem turn_exits (hcreates : ¬ creates i a = true) (hdispatches : ¬ dispatches i a = true)
    (hexits : exits i a = true) : ((effect s a).table.proc i).turnAroundTime =
      wrapUint ((s.table.ticks : ℤ) - (s.table.proc i).turnAroundTime) := by
  have htimes := times_effect s a i
  rw [stepTimes, if_neg hcreates, if_neg fun h => hdispatches h.1, if_pos hexits] at htimes
  simp only [times, Times.mk.injEq] at htimes
  exact htimes.2.1

end

/-! ## Slots in use -/

/-- The slot has been initialised by `allocproc`, and its process has not exited. -/
def Started (s : State C) (i : Slot) : Prop :=
  Alive (s.table.proc i).state ∨ ∃ cur, s.forkPc cur = .ready i ∨ s.forkPc cur = .copied i

/-- No slot comes alive. -/
def KeepsAlive (t t' : PTable) : Prop :=
  ∀ j, Alive (t'.proc j).state → Alive (t.proc j).state

/-- A change of one process that does not bring it to life. -/
theorem keepsAlive_modify {f : Proc → Proc}
    (hf : Alive (f (t.proc cur)).state → Alive (t.proc cur).state) :
    KeepsAlive t (t.modify cur f) := by
  intro j hj
  rw [modify_proc] at hj
  split_ifs at hj with hcur
  · exact hcur ▸ hf (hcur ▸ hj)
  · exact hj

/-- Waking processes brings none to life. -/
theorem keepsAlive_wakes (hwakes : Wakes t t') : KeepsAlive t t' := by
  intro j hj
  rcases hwakes.state j with hsame | ⟨hsleeping, -⟩
  · rwa [hsame] at hj
  · exact .inl hsleeping

/-- A slot comes alive only at the end of `fork`. -/
theorem alive_effect {a : Action C} (hcpus : OnCpus s) (henabled : Enabled s a)
    (halive : Alive ((effect s a).table.proc i).state) :
    Alive (s.table.proc i).state ∨ ∃ c cur, a = .forkRunnable c cur i := by
  have hrunning : ∀ {c cur}, s.cpu c = some cur → Alive (s.table.proc cur).state :=
    fun hcpu => .inr (.inr (hcpus.running _ _ hcpu))
  cases a with
  | forkRunnable c cur np =>
    by_cases hi : i = np
    · exact .inr ⟨c, cur, by rw [hi]⟩
    · refine .inl ?_
      simpa [effect, State.setForkPc, PTable.forkRunnable, modify_proc, hi] using halive
  | allocproc c cur np =>
    left
    by_cases hi : i = np
    · simp [effect, State.setForkPc, allocprocEmbryo, Alive, hi] at halive
    · simpa [effect, State.setForkPc, allocprocEmbryo, modify_proc, hi] using halive
  | kalloc c cur np kstack =>
    left
    simp only [effect] at halive
    split_ifs at halive
    · have hkeep : KeepsAlive s.table (s.table.allocprocFail np) :=
        keepsAlive_modify (by simp [Alive])
      exact hkeep i halive
    · have hkeep : KeepsAlive s.table (s.table.allocprocInit np kstack) := keepsAlive_modify id
      exact hkeep i halive
  | copyuvm c cur np pgdir =>
    left
    simp only [effect] at halive
    split_ifs at halive
    · have hkeep : KeepsAlive s.table (s.table.forkFail np) :=
        keepsAlive_modify (by simp [Alive])
      exact hkeep i halive
    · have hkeep : KeepsAlive s.table (s.table.forkCopy cur np pgdir) := keepsAlive_modify id
      exact hkeep i halive
  | exit c cur =>
    obtain ⟨⟨⟨hcpu, -⟩, -, -⟩, hinit⟩ := henabled
    have hwakes := (abandons_exitFamily hinit).wakes
    have hkeep : KeepsAlive (s.table.exitFamily cur) (s.table.exit cur) :=
      keepsAlive_modify (by simp [Alive])
    exact .inl (keepsAlive_wakes hwakes i (hkeep i halive))
  | scan c cur =>
    left
    simp only [effect] at halive
    rcases wait_spec s.table cur with ⟨pid, j, -, -, hwait⟩ | hwait | hwait
    · simp only [hwait, State.setPc] at halive
      exact keepsAlive_modify (by simp [Alive]) i halive
    · simpa only [hwait, State.setPc] using halive
    · simp only [hwait, State.sched, State.setPc, State.setCpu, PTable.sleep] at halive
      exact keepsAlive_modify (fun _ => hrunning henabled.1) i halive
  | kill c cur pid => exact .inl (keepsAlive_wakes (wakes_kill s.table pid) i halive)
  | yield c cur =>
    have hkeep : KeepsAlive s.table (s.table.yield cur) :=
      keepsAlive_modify fun _ => hrunning henabled.1.1
    exact .inl (hkeep i halive)
  | sleep c cur addr =>
    have hkeep : KeepsAlive s.table (s.table.sleep cur (some (.addr addr))) :=
      keepsAlive_modify fun _ => hrunning henabled.1.1
    exact .inl (hkeep i halive)
  | resume c cur =>
    have hkeep : KeepsAlive s.table (s.table.sleepReturn cur) := keepsAlive_modify id
    left
    simp only [effect] at halive
    split at halive
    · exact hkeep i halive
    · exact hkeep i halive
    · exact halive
  | wakeup addr => exact .inl (keepsAlive_wakes (wakes_wakeup1 _ _) i halive)
  | dispatch c j =>
    have hkeep : KeepsAlive s.table (s.table.dispatch j) :=
      keepsAlive_modify fun _ => .inr (.inl henabled.2.2)
    exact .inl (hkeep i halive)
  | wait _ _ | enter _ | leave _ | tick => exact .inl halive

/-- A fork has a child to be copied or to be started only after `allocproc`. -/
theorem forkPc_effect {a : Action C} (henabled : Enabled s a)
    (hfork : (effect s a).forkPc cur = .ready i ∨ (effect s a).forkPc cur = .copied i) :
    (s.forkPc cur = .ready i ∨ s.forkPc cur = .copied i) ∨ creates i a = true := by
  cases a with
  | allocproc c cur' np =>
    by_cases hcur : cur = cur'
    · simp [effect, State.setForkPc, hcur] at hfork
    · exact .inl (by simpa [effect, State.setForkPc, hcur] using hfork)
  | kalloc c cur' np kstack =>
    by_cases hcur : cur = cur'
    · by_cases hk : kstack = 0
      · simp [effect, State.setForkPc, hcur, hk] at hfork
      · right
        simpa [effect, State.setForkPc, hcur, hk, creates] using hfork
    · left
      simp only [effect] at hfork
      split_ifs at hfork <;> simpa [State.setForkPc, State.setPc, hcur] using hfork
  | copyuvm c cur' np pgdir =>
    left
    by_cases hcur : cur = cur'
    · by_cases hp : pgdir = 0
      · simp [effect, State.setForkPc, hcur, hp] at hfork
      · have hi : np = i := by simpa [effect, State.setForkPc, hcur, hp] using hfork
        rw [hcur, ← hi]
        exact .inl henabled.2
    · simp only [effect] at hfork
      split_ifs at hfork <;> simpa [State.setForkPc, hcur] using hfork
  | forkRunnable c cur' np =>
    by_cases hcur : cur = cur'
    · simp [effect, State.setForkPc, hcur] at hfork
    · exact .inl (by simpa [effect, State.setForkPc, hcur] using hfork)
  | scan c cur' =>
    left
    simp only [effect] at hfork
    split at hfork <;> exact hfork
  | resume c cur' =>
    left
    simp only [effect] at hfork
    split at hfork <;> exact hfork
  | _ => exact .inl hfork

/-- A slot is started only by `allocproc`. -/
theorem started_effect {a : Action C} (hcpus : OnCpus s) (henabled : Enabled s a)
    (hstarted : Started (effect s a) i) : Started s i ∨ creates i a = true := by
  rcases hstarted with halive | ⟨cur, hfork⟩
  · rcases alive_effect hcpus henabled halive with hold | ⟨c, cur, rfl⟩
    · exact .inl (.inl hold)
    · exact .inl (.inr ⟨cur, .inr henabled.2.1⟩)
  · rcases forkPc_effect henabled hfork with hold | hcreates
    · exact .inl (.inr ⟨cur, hold⟩)
    · exact .inr hcreates

/-- A process that exits ends its slot. -/
theorem not_started_exit {a : Action C} (hforks : Forks (effect s a)) (hexits : exits i a = true) :
    ¬ Started (effect s a) i := by
  cases a with
  | exit c cur =>
    obtain rfl : cur = i := by simpa [exits] using hexits
    have htable : (effect s (.exit c cur)).table = s.table.exit cur := rfl
    have hzombie : ((effect s (.exit c cur)).table.proc cur).state = .zombie := by
      rw [htable, PTable.exit, modify_proc_self]
    rintro (halive | ⟨parent, hfork⟩)
    · simp [hzombie, Alive] at halive
    · have hembryo := hforks.child parent cur
        (by rcases hfork with h | h <;> simp [h, ForkPc.child])
      rw [hzombie] at hembryo
      cases hembryo
  | _ => cases hexits

/-- After `sched` the CPU has no process, and the other CPUs theirs. -/
theorem cpu_sched (s : State C) (c d : C) (cur : Slot) (pc : Pc) :
    (s.sched d cur pc).cpu c = if c = d then none else s.cpu c := rfl

/-- Only a dispatch gives a CPU a process. -/
theorem cpu_effect {a : Action C} {c : C} (hcpu : (effect s a).cpu c = some i) :
    s.cpu c = some i ∨ dispatches i a = true := by
  cases a with
  | dispatch d j =>
    have hset : (effect s (.dispatch d j)).cpu c = if c = d then some j else s.cpu c := rfl
    rw [hset] at hcpu
    split_ifs at hcpu
    · right
      simpa [dispatches] using hcpu
    · exact .inl hcpu
  | kalloc d cur' np kstack | copyuvm d cur' np pgdir =>
    left
    simp only [effect] at hcpu
    split_ifs at hcpu <;> exact hcpu
  | exit d cur' | yield d cur' | sleep d cur' addr =>
    simp only [effect, cpu_sched] at hcpu
    split_ifs at hcpu
    exact .inl hcpu
  | scan d cur' =>
    left
    simp only [effect] at hcpu
    split at hcpu
    · exact hcpu
    · exact hcpu
    · rw [cpu_sched] at hcpu
      split_ifs at hcpu
      exact hcpu
  | resume d cur' =>
    left
    simp only [effect] at hcpu
    split at hcpu <;> exact hcpu
  | _ => exact .inl hcpu

/-! ## The tick count -/

/-- Giving children to init does not advance the clock. -/
theorem ticks_foldl_exitAdopt (cur : Slot) (l : List Slot) (t : PTable) :
    (l.foldl (exitAdopt cur) t).ticks = t.ticks := by
  induction l generalizing t with
  | nil => rfl
  | cons j l ih =>
    have hround : (exitAdopt cur t j).ticks = t.ticks := by
      unfold exitAdopt
      dsimp only
      split_ifs <;> rfl
    exact (ih _).trans hround

/-- Changing a process does not advance the clock. -/
theorem ticks_modify (t : PTable) (i : Slot) (f : Proc → Proc) :
    (t.modify i f).ticks = t.ticks := rfl

/-- `wakeup1` does not advance the clock. -/
theorem ticks_wakeup1 (t : PTable) (chan : Option Chan) :
    (t.wakeup1 chan).ticks = t.ticks := rfl

/-- `exit` does not advance the clock. -/
theorem ticks_exit (t : PTable) (cur : Slot) : (t.exit cur).ticks = t.ticks := by
  rw [PTable.exit, ticks_modify, exitFamily, ticks_foldl_exitAdopt, ticks_wakeup1, ticks_modify]

/-- `kill` does not advance the clock. -/
theorem ticks_kill (t : PTable) (pid : ℤ) : (t.kill pid).2.ticks = t.ticks := by
  unfold kill
  split <;> rfl

/-- Only the timer changes `ticks`. -/
theorem ticks_effect (s : State C) (a : Action C) :
    (effect s a).table.ticks =
      if isTick a then wrapUint ((s.table.ticks : ℤ) + 1) else s.table.ticks := by
  cases a with
  | exit c cur => exact ticks_exit s.table cur
  | kill c cur pid => exact ticks_kill s.table pid
  | kalloc c cur np kstack | copyuvm c cur np pgdir =>
    simp only [effect]
    split_ifs <;> first | rfl | simp_all [isTick]
  | scan c cur =>
    simp only [effect]
    rcases wait_spec s.table cur with ⟨pid, j, -, -, hwait⟩ | hwait | hwait <;>
      simp only [hwait] <;> rfl
  | resume c cur =>
    simp only [effect]
    split <;> rfl
  | _ => rfl

omit [DecidableEq C] in
/-- The timer interrupts of a run, one step later. -/
theorem tickCount_cons (a : Action C) (trace : List (Action C)) :
    tickCount (a :: trace) = tickCount trace + if isTick a then 1 else 0 := List.countP_cons

/-- The difference of two tick counts, as `uint` arithmetic computes it. -/
theorem wrapUint_sub {a b : ℕ} (hle : b ≤ a) :
    wrapUint (((a % 2 ^ 32 : ℕ) : ℤ) - ((b % 2 ^ 32 : ℕ) : ℤ)) = (a - b) % 2 ^ 32 := by
  unfold wrapUint
  omega

/-! ## Runs -/

/-- What the fields of the slots mean after a run. -/
structure Right (trace : List (Action C)) (s : State C) : Prop where
  /-- The tick count, modulo `2 ^ 32`. -/
  ticks : s.table.ticks = tickCount trace % 2 ^ 32
  /-- A process is created before now. -/
  alloc : ∀ i, allocTick i trace ≤ tickCount trace
  /-- Before the first dispatch `response_time` is the creation time. -/
  waiting : ∀ i, dispatchTick i trace = none → (s.table.proc i).serv = 0 ∧
    (s.table.proc i).responseTime = allocTick i trace % 2 ^ 32
  /-- From the first dispatch on it is the response time. -/
  served : ∀ i d, dispatchTick i trace = some d →
    allocTick i trace ≤ d ∧ d ≤ tickCount trace ∧ (s.table.proc i).serv = 1 ∧
      (s.table.proc i).responseTime = (d - allocTick i trace) % 2 ^ 32
  /-- Up to the exit `turn_around_time` is the creation time. -/
  turn : ∀ i, Started s i → (s.table.proc i).turnAroundTime = allocTick i trace % 2 ^ 32
  /-- A running process has been dispatched. -/
  running : ∀ c i, s.cpu c = some i → dispatchTick i trace ≠ none

omit [DecidableEq C] in
/-- At boot there is nothing to report. -/
theorem right_boot {kstack pgdir root : ℕ} :
    Right ([] : List (Action C)) (boot kstack pgdir root) := by
  have htimes : ∀ i : Slot, times ((boot kstack pgdir root : State C).table.proc i) =
      ⟨0, 0, 0⟩ := by
    intro i
    by_cases hi : i = 0
    · subst hi
      simp [boot, userinit, allocprocEmbryo, allocprocInit, ticks_modify, PTable.zero, Proc.zero,
        times]
    · simp [boot, userinit, allocprocEmbryo, allocprocInit, modify_proc, hi, PTable.zero,
        Proc.zero, times]
  simp only [times, Times.mk.injEq] at htimes
  constructor
  · rfl
  · exact fun i => le_rfl
  · exact fun i _ => ⟨(htimes i).2.2, (htimes i).1⟩
  · intro i d hd
    simp [dispatchTick] at hd
  · exact fun i _ => (htimes i).2.1
  · intro c i hcpu
    simp [boot] at hcpu

omit [DecidableEq C] in
/-- A slot that is initialised is not on a CPU. -/
theorem cpu_ne_of_creates {a : Action C} {c : C} (hinv : Inv s) (henabled : Enabled s a)
    (hcreates : creates i a = true) : s.cpu c ≠ some i := by
  cases a with
  | kalloc d cur np kstack =>
    obtain ⟨rfl, -⟩ : np = i ∧ kstack ≠ 0 := by simpa [creates] using hcreates
    intro hcpu
    have hrunning := hinv.cpus.running c np hcpu
    have hembryo := hinv.forks.child cur np (by simp [henabled.2, ForkPc.child])
    rw [hrunning] at hembryo
    cases hembryo
  | _ => cases hcreates

/-- Every step keeps the meaning of the fields. -/
theorem Right.effect {trace : List (Action C)} {a : Action C} (h : Right trace s) (hinv : Inv s)
    (henabled : Enabled s a) : Right (a :: trace) (effect s a) := by
  have hticks := h.ticks
  refine ⟨?_, fun i => ?_, fun i hnone => ?_, fun i d hd => ?_, fun i hstarted => ?_,
    fun c i hcpu => ?_⟩
  · rw [ticks_effect, tickCount_cons, hticks]
    split_ifs
    · unfold wrapUint
      omega
    · rfl
  · have halloc := h.alloc i
    rw [tickCount_cons, allocTick]
    split_ifs <;> omega
  · -- before the first dispatch
    rw [dispatchTick] at hnone
    rw [allocTick]
    by_cases hcreates : creates i a = true
    · have hnew := times_created (s := s) hcreates
      simp only [times, Times.mk.injEq] at hnew
      rw [if_pos hcreates, ← hticks]
      exact ⟨hnew.2.2, hnew.1⟩
    · rw [if_neg hcreates] at hnone ⊢
      by_cases hdispatches : dispatches i a = true
      · simp [hdispatches] at hnone
      · rw [if_neg hdispatches] at hnone
        obtain ⟨hserv, hresponse⟩ := response_kept (s := s) hcreates fun hd =>
          absurd hd hdispatches
        rw [hserv, hresponse]
        exact h.waiting i hnone
  · -- from the first dispatch on
    have halloc := h.alloc i
    have hmono : tickCount trace ≤ tickCount (a :: trace) := by
      rw [tickCount_cons]
      omega
    have hkept : ∀ {d}, ¬ creates i a = true → dispatchTick i trace = some d →
        allocTick i trace ≤ d ∧ d ≤ tickCount (a :: trace) ∧
          ((Cpus.effect s a).table.proc i).serv = 1 ∧
          ((Cpus.effect s a).table.proc i).responseTime =
            (d - allocTick i trace) % 2 ^ 32 := by
      intro d hcreates hold
      obtain ⟨hlo, hhi, hserv, hresponse⟩ := h.served i d hold
      obtain ⟨hserv', hresponse'⟩ := response_kept (s := s) hcreates fun _ => by simp [hserv]
      exact ⟨hlo, hhi.trans hmono, hserv'.trans hserv, hresponse'.trans hresponse⟩
    rw [dispatchTick] at hd
    rw [allocTick]
    by_cases hcreates : creates i a = true
    · simp [hcreates] at hd
    · rw [if_neg hcreates] at hd ⊢
      by_cases hdispatches : dispatches i a = true
      · rw [if_pos hdispatches] at hd
        cases hold : dispatchTick i trace with
        | some d' =>
          obtain rfl : d' = d := by simpa [hold] using hd
          exact hkept hcreates hold
        | none =>
          -- this is the first dispatch
          obtain rfl : tickCount trace = d := by simpa [hold] using hd
          obtain ⟨hserv, hresponse⟩ := h.waiting i hold
          obtain ⟨hserv', hresponse'⟩ := response_dispatched hcreates hdispatches hserv
          refine ⟨halloc, hmono, hserv', ?_⟩
          rw [hresponse', hticks, hresponse, wrapUint_sub halloc]
      · rw [if_neg hdispatches] at hd
        exact hkept hcreates hd
  · rw [allocTick]
    by_cases hcreates : creates i a = true
    · have hnew := times_created (s := s) hcreates
      simp only [times, Times.mk.injEq] at hnew
      rw [if_pos hcreates, ← hticks]
      exact hnew.2.1
    · have hexits : ¬ exits i a = true := fun hexits =>
        not_started_exit (hinv.effect henabled).forks hexits hstarted
      have hold := (started_effect hinv.cpus henabled hstarted).resolve_right hcreates
      rw [if_neg hcreates, turn_kept hcreates hexits]
      exact h.turn i hold
  · rw [dispatchTick]
    rcases cpu_effect hcpu with hold | hdispatches
    · have hcreates : ¬ creates i a = true := fun hcreates =>
        cpu_ne_of_creates hinv henabled hcreates hold
      have hsome := h.running c i hold
      rw [if_neg hcreates]
      split_ifs
      · simp
      · exact hsome
    · have hcreates : ¬ creates i a = true := by
        cases a with
        | dispatch => simp [creates]
        | _ => cases hdispatches
      rw [if_neg hcreates, if_pos hdispatches]
      simp

section

variable {trace : List (Action C)} {kstack pgdir root : ℕ}

/-- In every state that a run reaches, the times in the table are right. -/
theorem right_run (hkstack : kstack ≠ 0) (hpgdir : pgdir ≠ 0)
    (hrun : Run step free (boot kstack pgdir root) trace s) : Right trace s := by
  induction hrun with
  | start => exact right_boot
  | @step trace s s' a hrun hguard hstep ih =>
    obtain ⟨henabled, rfl⟩ := step_eq_some.mp hstep
    exact ih.effect (inv_run hkstack hpgdir hrun) henabled

/-- What the fields of a process hold when it exits. -/
theorem exit_times (hkstack : kstack ≠ 0) (hpgdir : pgdir ≠ 0)
    (hrun : Run step free (boot kstack pgdir root) trace s) {c : C} {s' : State C}
    (hexit : step s (.exit c cur) = some s') :
    ∃ d, dispatchTick cur trace = some d ∧ allocTick cur trace ≤ d ∧ d ≤ tickCount trace ∧
      (s'.table.proc cur).turnAroundTime = (tickCount trace - allocTick cur trace) % 2 ^ 32 ∧
      (s'.table.proc cur).responseTime = (d - allocTick cur trace) % 2 ^ 32 := by
  have hright := right_run hkstack hpgdir hrun
  have hinv := inv_run hkstack hpgdir hrun
  obtain ⟨henabled, rfl⟩ := step_eq_some.mp hexit
  have hcpu : s.cpu c = some cur := henabled.1.1.1
  obtain ⟨d, hd⟩ := Option.ne_none_iff_exists'.mp (hright.running c cur hcpu)
  obtain ⟨hlo, hhi, -, hresponse⟩ := hright.served cur d hd
  have hstarted : Started s cur := .inl (.inr (.inr (hinv.cpus.running c cur hcpu)))
  have hcreates : ¬ creates cur (Action.exit c cur) = true := by simp [creates]
  refine ⟨d, hd, hlo, hhi, ?_, ?_⟩
  · rw [turn_exits hcreates (by simp [dispatches]) (by simp [exits]), hright.ticks,
      hright.turn cur hstarted, wrapUint_sub (hright.alloc cur)]
  · rw [(response_kept hcreates (by simp [dispatches])).2, hresponse]

/-- A number is printed as it is exactly when it fits into an `int`. -/
theorem printed_eq_iff {n : ℕ} (hn : n < 2 ^ 32) : printed n = n ↔ n < 2 ^ 31 := by
  unfold printed
  constructor
  · intro h
    by_contra hbig
    have hwrap : wrapInt n ≤ 2 ^ 31 - 1 := by
      unfold wrapInt
      have := Int.bmod_lt (x := n) (m := 2 ^ 32) (by norm_num)
      norm_num at *
      omega
    omega
  · intro h
    apply wrapInt_of_mem
    · omega
    · unfold intMax
      omega

/-- In every run, what a process prints when it exits is right exactly when it has lived for
fewer than `2 ^ 31` ticks: the turn-around time is the number of ticks since its creation, and
the response time, no larger, the number of ticks from its creation to its first dispatch. -/
theorem exit_reports_iff (hkstack : kstack ≠ 0) (hpgdir : pgdir ≠ 0)
    (hrun : Run step free (boot kstack pgdir root) trace s) {c : C} {s' : State C}
    (hexit : step s (.exit c cur) = some s')
    (hlife : tickCount trace - allocTick cur trace < 2 ^ 32) :
    ∃ d, dispatchTick cur trace = some d ∧
      ((printed (s'.table.proc cur).turnAroundTime =
          (tickCount trace : ℤ) - allocTick cur trace ∧
        printed (s'.table.proc cur).responseTime = (d : ℤ) - allocTick cur trace ∧
        printed (s'.table.proc cur).responseTime ≤
          printed (s'.table.proc cur).turnAroundTime) ↔
      tickCount trace - allocTick cur trace < 2 ^ 31) := by
  obtain ⟨d, hd, hlo, hhi, hturn, hresponse⟩ := exit_times hkstack hpgdir hrun hexit
  have hle : d - allocTick cur trace ≤ tickCount trace - allocTick cur trace :=
    Nat.sub_le_sub_right hhi _
  refine ⟨d, hd, ?_⟩
  rw [hturn, hresponse, Nat.mod_eq_of_lt hlife, Nat.mod_eq_of_lt (hle.trans_lt hlife),
    ← Nat.cast_sub (hlo.trans hhi), ← Nat.cast_sub hlo]
  have hlong := printed_eq_iff hlife
  have hshort := printed_eq_iff (hle.trans_lt hlife)
  constructor
  · rintro ⟨hprinted, -, -⟩
    exact hlong.mp hprinted
  · intro hsmall
    rw [hlong.mpr hsmall, hshort.mpr (hle.trans_lt hsmall)]
    exact ⟨rfl, rfl, Nat.cast_le.mpr hle⟩

end

/-- Ticks can be appended to every run; they change `ticks` only. -/
theorem run_ticks {trace : List (Action C)} {init : State C} (hrun : Run step free init trace s)
    (n : ℕ) : ∃ ticks, Run step free init (List.replicate n .tick ++ trace)
      { s with table := { s.table with ticks := ticks } } := by
  induction n with
  | zero => exact ⟨s.table.ticks, hrun⟩
  | succ n ih =>
    obtain ⟨ticks, hticks⟩ := ih
    exact ⟨_, .step hticks trivial (step_eq_some.mpr ⟨trivial, rfl⟩)⟩

/-- Init forks, and a second CPU dispatches the child. -/
def forkDispatch (c d : C) (parent child : Slot) : List (Action C) :=
  [.enter c, .dispatch c parent, .resume c parent,
    .allocproc c parent child, .kalloc c parent child 4096, .copyuvm c parent child 8192,
    .forkRunnable c parent child, .enter d, .dispatch d child, .resume d child]

/-- After that run the child is on the second CPU, created and dispatched at tick 0. -/
theorem forkDispatch_run : ∃ s : State (Fin 2),
    Run step free (boot 4096 8192 1) (forkDispatch 0 1 0 1).reverse s ∧
      Enabled s (.exit 1 1) := by
  have hexec : (exec step free [] (boot 4096 8192 1 : State (Fin 2)) (forkDispatch 0 1 0 1)).any
      (fun s => Enabled s (.exit 1 1)) = true := by
    decide +kernel
  obtain ⟨s, hs, henabled⟩ := (Option.any_eq_true _ _).mp hexec
  exact ⟨s, run_of_exec hs, by simpa using henabled⟩

/-- The child lives for `n` ticks after its dispatch, and exits. -/
theorem forkDispatch_exit (n : ℕ) : ∃ s s' : State (Fin 2),
    Run step free (boot 4096 8192 1)
      (List.replicate n .tick ++ (forkDispatch 0 1 0 1).reverse) s ∧
      step s (.exit 1 1) = some s' := by
  obtain ⟨s, hrun, henabled⟩ := forkDispatch_run
  obtain ⟨ticks, hrun'⟩ := run_ticks hrun n
  exact ⟨_, _, hrun', step_eq_some.mpr ⟨henabled, rfl⟩⟩

/-- The timer interrupts of the run, and those before the creation of the child. -/
theorem forkDispatch_ticks (n : ℕ) :
    tickCount (List.replicate n .tick ++ (forkDispatch 0 1 0 1 : List (Action (Fin 2))).reverse) =
        n ∧
      allocTick 1 (List.replicate n .tick ++
        (forkDispatch 0 1 0 1 : List (Action (Fin 2))).reverse) = 0 := by
  induction n with
  | zero => exact ⟨by decide, by decide⟩
  | succ n ih =>
    rw [List.replicate_succ, List.cons_append, tickCount_cons, allocTick, ih.1]
    exact ⟨rfl, ih.2⟩

/-- A child that lives for three ticks reports three ticks. -/
theorem exit_reports_three : ∃ (s s' : State (Fin 2)) (d : ℕ),
    step s (.exit 1 1) = some s' ∧
      printed (s'.table.proc 1).turnAroundTime = 3 ∧
      printed (s'.table.proc 1).responseTime = d := by
  obtain ⟨s, s', hrun, hexit⟩ := forkDispatch_exit 3
  obtain ⟨hticks, halloc⟩ := forkDispatch_ticks 3
  obtain ⟨d, -, hright⟩ := exit_reports_iff (by decide) (by decide) hrun hexit
    (by rw [hticks, halloc]; decide)
  obtain ⟨hturn, hresponse, -⟩ := hright.mpr (by rw [hticks, halloc]; decide)
  rw [hticks, halloc] at hturn
  rw [halloc] at hresponse
  exact ⟨s, s', d, hexit, by simpa using hturn, by simpa using hresponse⟩

/-- A child that lives for `2 ^ 31` ticks reports a negative number of them. -/
theorem exit_reports_negative : ¬ ∀ (trace : List (Action (Fin 2))) (s s' : State (Fin 2))
    (c : Fin 2) (cur : Slot), Run step free (boot 4096 8192 1) trace s →
      step s (.exit c cur) = some s' → tickCount trace - allocTick cur trace < 2 ^ 32 →
        printed (s'.table.proc cur).turnAroundTime =
          (tickCount trace : ℤ) - allocTick cur trace := by
  intro hall
  obtain ⟨s, s', hrun, hexit⟩ := forkDispatch_exit (2 ^ 31)
  obtain ⟨hticks, halloc⟩ := forkDispatch_ticks (2 ^ 31)
  obtain ⟨d, -, -, -, hturn, -⟩ := exit_times (by decide) (by decide) hrun hexit
  have hprinted := hall _ s s' 1 1 hrun hexit (by rw [hticks, halloc]; norm_num)
  rw [hturn, hticks, halloc] at hprinted
  norm_num [printed, wrapInt, Int.bmod_def] at hprinted

end Xv6.ReportedTimes
