import Xv6.ProcessRun

/-!
# The accounting of system calls

`register_syscall` charges each completed call to a counter of the calling process, and
`invoked_syscalls` reads the counters back. Along runs of the process table the counters are
the numbers of completed calls since the process was created, as long as no process
completes `log_syscalls`: its number is one beyond the counters, in the place of `ticket`.
-/

namespace Xv6

/-- `invoked_syscalls`, the loops that print the counters: the numbers and counts of the
lines that are printed. -/
def PTable.invokedCounts (t : PTable) (pid : ℤ) : List (ℕ × ℤ) :=
  if 0 < pid ∧ pid < t.nextpid then
    (List.finRange nproc).flatMap fun i =>
      if (t.proc i).pid = pid then
        ((List.finRange maxSyscall).filter fun id => 0 < (t.proc i).syscallCount id).map fun id =>
          (id.val, (t.proc i).syscallCount id)
      else []
  else []

/-- What `invoked_syscalls` prints: the positive counters of the slots that carry the pid. -/
theorem PTable.mem_invokedCounts {t : PTable} {pid : ℤ} {id : ℕ} {n : ℤ} :
    (id, n) ∈ t.invokedCounts pid ↔ (0 < pid ∧ pid < t.nextpid) ∧
      ∃ i, (t.proc i).pid = pid ∧ ∃ hid : id < maxSyscall,
        n = (t.proc i).syscallCount ⟨id, hid⟩ ∧ 0 < n := by
  unfold PTable.invokedCounts
  split_ifs with hpid
  · simp only [List.mem_flatMap, List.mem_finRange, true_and, hpid, and_self]
    refine exists_congr fun i => ?_
    split_ifs with hi
    · simp only [List.mem_map, List.mem_filter, List.mem_finRange, true_and, decide_eq_true_eq,
        Prod.mk.injEq, hi]
      constructor
      · rintro ⟨j, hpos, rfl, rfl⟩
        exact ⟨j.isLt, rfl, hpos⟩
      · rintro ⟨hid, rfl, hpos⟩
        exact ⟨⟨id, hid⟩, hpos, rfl, rfl⟩
    · simp [hi]
  · simp [hpid]

namespace ProcessRun

open GuardedRun PTable

/-- The number of calls `register_syscall(pid, id, _)` since `allocproc` last handed out the
slot `np`. The trace lists the latest action first. -/
def callsSince : List Action → Slot → ℤ → ℕ → ℕ
  | [], _, _, _ => 0
  | .allocproc _ np' :: trace, np, pid, id => if np' = np then 0 else callsSince trace np pid id
  | .complete _ c :: trace, np, pid, id =>
      callsSince trace np pid id + if c.pid = pid ∧ c.id = id then 1 else 0
  | _ :: trace, np, pid, id => callsSince trace np pid id

/-- What is claimed of a state: for every live process and every dispatchable number,
`invoked_syscalls` prints the number of completed calls, and no line if there was none. -/
def CountersExact (trace : List Action) (t : PTable) : Prop :=
  ∀ i, (t.proc i).state ≠ .unused → ∀ id, Dispatchable id → ∀ n : ℤ,
    (id, n) ∈ t.invokedCounts (t.proc i).pid ↔
      n = callsSince trace i (t.proc i).pid id ∧ 0 < n

/-- What is claimed of a step: `register_syscall` writes inside the counters and changes
nothing else of the table. -/
def Confined (s s' : State) : Action → Prop
  | .complete _ c =>
      c.id < maxSyscall ∧ ∃ counts : Slot → Fin maxSyscall → ℤ,
        s'.table = { s.table with
          proc := fun i => { s.table.proc i with syscallCount := counts i } }
  | _ => True

/-- The steps that are accounted for: no call has the number `MAXSYSCALL`, and neither the
counter that is incremented nor `nextpid` is at the end of the range of `int`. -/
def Accountable (s : State) : Action → Prop
  | .complete cur c =>
      ∃ hid : c.id < maxSyscall, (s.table.proc cur).syscallCount ⟨c.id, hid⟩ < intMax
  | .allocproc _ _ => s.table.nextpid < intMax
  | _ => True

instance (s : State) : ∀ a, Decidable (Accountable s a)
  | .complete _ _ => inferInstanceAs (Decidable (∃ _ : _ < maxSyscall, _ < intMax))
  | .allocproc _ _ => inferInstanceAs (Decidable (_ < intMax))
  | .kalloc _ _ _ | .copyuvm _ _ _ | .forkRunnable _ _ | .exit _ | .wait _ | .kill _ _
  | .dispatch _ | .yield _ | .sleep _ _ | .resume _ | .wakeup _ | .tick => isTrue trivial

/-! ## What a step does to pids, counters and states -/

/-- A slot that is neither free nor being created. -/
def Settled (p : Proc) : Prop := p.state ≠ .unused ∧ p.state ≠ .embryo

/-- The second table has the pids, counters and `nextpid` of the first. -/
structure SameAccounts (t t' : PTable) : Prop where
  /-- Pids stay. -/
  pid : ∀ j, (t'.proc j).pid = (t.proc j).pid
  /-- Counters stay. -/
  syscallCount : ∀ j, (t'.proc j).syscallCount = (t.proc j).syscallCount
  /-- `nextpid` stays. -/
  nextpid : t'.nextpid = t.nextpid

/-- A change of one slot that keeps pid and counters. -/
theorem SameAccounts.modify {t t' : PTable} (hsame : SameAccounts t t') {i : Slot}
    {f : Proc → Proc} (hpid : (f (t'.proc i)).pid = (t'.proc i).pid)
    (hcount : (f (t'.proc i)).syscallCount = (t'.proc i).syscallCount) :
    SameAccounts t (t'.modify i f) := by
  refine ⟨fun j => ?_, fun j => ?_, hsame.nextpid⟩ <;> rw [modify_proc]
  · split_ifs with hj
    · rw [hj, hpid, hsame.pid]
    · exact hsame.pid j
  · split_ifs with hj
    · rw [hj, hcount, hsame.syscallCount]
    · exact hsame.syscallCount j

theorem SameAccounts.refl (t : PTable) : SameAccounts t t := ⟨fun _ => rfl, fun _ => rfl, rfl⟩

/-- Beyond that, no slot is freed, taken or settled. -/
structure Same (t t' : PTable) : Prop extends SameAccounts t t' where
  /-- States stay, or the slot is settled before and after. -/
  state : ∀ j, (t'.proc j).state = (t.proc j).state ∨ Settled (t.proc j) ∧ Settled (t'.proc j)

theorem Same.refl (t : PTable) : Same t t := ⟨.refl t, fun _ => .inl rfl⟩

/-- A change of one slot that keeps its pid and counters and leaves it settled. -/
theorem Same.modify {t t' : PTable} (hsame : Same t t') {i : Slot} {f : Proc → Proc}
    (hbefore : Settled (t.proc i)) (hafter : Settled (f (t'.proc i)))
    (hpid : (f (t'.proc i)).pid = (t'.proc i).pid)
    (hcount : (f (t'.proc i)).syscallCount = (t'.proc i).syscallCount) :
    Same t (t'.modify i f) := by
  refine ⟨hsame.toSameAccounts.modify hpid hcount, fun j => ?_⟩
  rw [modify_proc]
  split_ifs with hj
  · rw [hj]
    exact .inr ⟨hbefore, hafter⟩
  · exact hsame.state j

/-- Quiet changes keep accounts and states. -/
theorem Same.of_quiet {t t' : PTable} (hquiet : Quiet t t') : Same t t' := by
  refine ⟨⟨hquiet.pid, hquiet.syscallCount, hquiet.nextpid⟩, fun j => ?_⟩
  rcases hquiet.state j with hsame | ⟨hsleeping, hwoken⟩
  · exact .inl hsame
  · exact .inr ⟨by simp [Settled, hsleeping], by simp [Settled, hwoken]⟩

theorem same_sleep {t : PTable} {cur : Slot} (hcur : Settled (t.proc cur)) (chan : Option Chan) :
    Same t (t.sleep cur chan) := .modify (.refl t) hcur ⟨nofun, nofun⟩ rfl rfl

theorem same_yield {t : PTable} {cur : Slot} (hcur : Settled (t.proc cur)) :
    Same t (t.yield cur) := .modify (.refl t) hcur ⟨nofun, nofun⟩ rfl rfl

theorem same_dispatch {t : PTable} {i : Slot} (hi : Settled (t.proc i)) : Same t (t.dispatch i) :=
  .modify (.refl t) hi ⟨nofun, nofun⟩ rfl rfl

theorem same_exit {t : PTable} {cur : Slot} (hcur : Settled (t.proc cur)) :
    Same t (t.exit cur) := by
  have hfamily : Same t (t.exitFamily cur) := .of_quiet (quiet_exitFamily t cur)
  rw [PTable.exit]
  exact hfamily.modify hcur (by simp [Settled]) (by simp only) (by simp only)

theorem same_kill (t : PTable) (pid : ℤ) : Same t (t.kill pid).2 := by
  unfold PTable.kill
  split
  · rename_i i _
    dsimp only
    refine ⟨.modify (.refl t) rfl rfl, fun j => ?_⟩
    simp only [modify_proc]
    split_ifs with hj hsleeping
    · rw [hj] at hsleeping ⊢
      exact .inr ⟨by simp [Settled, hsleeping], nofun, nofun⟩
    · exact .inl rfl
    · exact .inl rfl
  · exact .refl t

/-- What a step can do to pids, counters, states and the children that are being created. -/
inductive Account (s : State) : Action → State → Prop
  /-- `allocproc` takes an `UNUSED` slot. -/
  | allocproc {cur np : Slot} {s' : State} (hunused : (s.table.proc np).state = .unused)
      (htable : s'.table = s.table.allocprocEmbryo np)
      (hchild : ∀ i, (s'.forkPc i).child = if i = cur then some np else (s.forkPc i).child) :
      Account s (.allocproc cur np) s'
  /-- `fork` ends, and the child gets its first state or is given up. -/
  | settle {a : Action} {s' : State} {cur np : Slot} (hnp : (s.forkPc cur).child = some np)
      (haccounts : SameAccounts s.table s'.table)
      (hstates : ∀ j, j ≠ np → (s'.table.proc j).state = (s.table.proc j).state)
      (hchild : ∀ i, (s'.forkPc i).child = if i = cur then none else (s.forkPc i).child)
      (hcalls : ∀ trace i pid id, callsSince (a :: trace) i pid id = callsSince trace i pid id) :
      Account s a s'
  /-- `wait` reaps a zombie. -/
  | reap {cur i : Slot} {s' : State} {f : Proc → Proc}
      (hzombie : (s.table.proc i).state = .zombie) (htable : s'.table = s.table.modify i f)
      (hpid : (f (s.table.proc i)).pid = 0) (hunused : (f (s.table.proc i)).state = .unused)
      (hchild : ∀ j, (s'.forkPc j).child = (s.forkPc j).child) :
      Account s (.wait cur) s'
  /-- `register_syscall` charges a call of a running process. -/
  | complete {cur : Slot} {c : Call} {s' : State} (hrunning : (s.table.proc cur).state = .running)
      (hpid : c.pid = (s.table.proc cur).pid)
      (htable : s'.table = s.table.countSyscall c.pid c.id)
      (hchild : ∀ i, (s'.forkPc i).child = (s.forkPc i).child) :
      Account s (.complete cur c) s'
  /-- Accounts, free slots and slots being created stay. -/
  | same {a : Action} {s' : State}
      (htable : Same s.table s'.table)
      (hchild : ∀ i, (s'.forkPc i).child = (s.forkPc i).child)
      (hcalls : ∀ trace i pid id, callsSince (a :: trace) i pid id = callsSince trace i pid id) :
      Account s a s'

/-- The child of a process in `fork` after that process moved on. -/
theorem child_setForkPc (s : State) (cur : Slot) (pc : ForkPc) (i : Slot) :
    ((s.setForkPc cur pc).forkPc i).child = if i = cur then pc.child else (s.forkPc i).child := by
  simp only [State.setForkPc]
  split_ifs <;> rfl

/-- A process that moves on in `fork` with the same child. -/
theorem child_setForkPc_same {s : State} {cur : Slot} {pc : ForkPc}
    (hsame : pc.child = (s.forkPc cur).child) (i : Slot) :
    ((s.setForkPc cur pc).forkPc i).child = (s.forkPc i).child := by
  rw [child_setForkPc]
  split_ifs with hi
  · rw [hi, hsame]
  · rfl

/-- A process whose `fork` ends leaves the other slots as they are. -/
theorem Account.settle_modify {s s' : State} {a : Action} {cur np : Slot} {f : Proc → Proc}
    (hnp : (s.forkPc cur).child = some np)
    (hs' : s' = { s with table := s.table.modify np f }.setForkPc cur .idle)
    (hpid : (f (s.table.proc np)).pid = (s.table.proc np).pid)
    (hcount : (f (s.table.proc np)).syscallCount = (s.table.proc np).syscallCount)
    (hcalls : ∀ trace i pid id, callsSince (a :: trace) i pid id = callsSince trace i pid id) :
    Account s a s' := by
  subst hs'
  refine .settle hnp (.modify (.refl _) hpid hcount) (fun j hj => ?_) (child_setForkPc _ cur _)
    hcalls
  rw [State.setForkPc_table, modify_proc_of_ne hj]

/-- Every step is one of these. -/
theorem account_of_step {s s' : State} {a : Action} (hstep : step s a = some s') :
    Account s a s' := by
  obtain ⟨henabled, rfl⟩ := step_eq_some.mp hstep
  have hsettled : ∀ {i}, (s.table.proc i).state = .running → Settled (s.table.proc i) := by
    intro i hi
    simp [Settled, hi]
  cases a with
  | allocproc cur np =>
    have hunused : (s.table.proc np).state = .unused := by simpa using findSlot_some henabled.2
    exact .allocproc hunused rfl (child_setForkPc _ cur _)
  | kalloc cur np kstack =>
    have hnp : (s.forkPc cur).child = some np := by rw [henabled.2]; rfl
    by_cases hfail : kstack = 0
    · simp only [effect, if_pos hfail, allocprocFail]
      exact .settle_modify hnp rfl rfl rfl fun _ _ _ _ => rfl
    · have hquiet : Quiet s.table (s.table.allocprocInit np kstack) := quiet_modify rfl rfl rfl rfl
      simp only [effect, if_neg hfail]
      exact .same (.of_quiet hquiet) (child_setForkPc_same hnp.symm) fun _ _ _ _ => rfl
  | copyuvm cur np pgdir =>
    have hnp : (s.forkPc cur).child = some np := by rw [henabled.2]; rfl
    by_cases hfail : pgdir = 0
    · simp only [effect, if_pos hfail, forkFail]
      exact .settle_modify hnp rfl rfl rfl fun _ _ _ _ => rfl
    · have hquiet : Quiet s.table (s.table.forkCopy cur np pgdir) := quiet_modify rfl rfl rfl rfl
      simp only [effect, if_neg hfail]
      exact .same (.of_quiet hquiet) (child_setForkPc_same hnp.symm) fun _ _ _ _ => rfl
  | forkRunnable cur np =>
    have hnp : (s.forkPc cur).child = some np := by rw [henabled.2]; rfl
    simp only [effect, PTable.forkRunnable]
    exact .settle_modify hnp rfl rfl rfl fun _ _ _ _ => rfl
  | exit cur => exact .same (same_exit (hsettled henabled.1.1)) (fun _ => rfl) fun _ _ _ _ => rfl
  | wait cur =>
    simp only [effect]
    rcases wait_spec s.table cur with ⟨pid, i, -, hzombie, hwait⟩ | hwait | hwait <;>
      simp only [hwait]
    · exact .reap hzombie (f := fun p => { p with
        kstack := 0, pid := 0, parent := none, name := "", killed := 0, state := .unused })
        rfl rfl rfl fun _ => rfl
    · exact .same (.refl _) (fun _ => rfl) fun _ _ _ _ => rfl
    · exact .same (same_sleep (hsettled henabled.1) _) (fun _ => rfl) fun _ _ _ _ => rfl
  | kill cur pid => exact .same (same_kill _ pid) (fun _ => rfl) fun _ _ _ _ => rfl
  | complete cur c => exact .complete henabled.1.1 henabled.2.1 rfl fun _ => rfl
  | dispatch i =>
    have hrunnable : (s.table.proc i).state = .runnable := henabled
    have hi : Settled (s.table.proc i) := by simp [Settled, hrunnable]
    exact .same (same_dispatch hi) (fun _ => rfl) fun _ _ _ _ => rfl
  | yield i => exact .same (same_yield (hsettled henabled)) (fun _ => rfl) fun _ _ _ _ => rfl
  | sleep i chan => exact .same (same_sleep (hsettled henabled) _) (fun _ => rfl) fun _ _ _ _ => rfl
  | resume i =>
    have hquiet : Quiet s.table (s.table.sleepReturn i) := quiet_modify rfl rfl rfl rfl
    exact .same (.of_quiet hquiet) (fun _ => rfl) fun _ _ _ _ => rfl
  | wakeup chan => exact .same (.of_quiet (quiet_wakeup1 _ _)) (fun _ => rfl) fun _ _ _ _ => rfl
  | tick =>
    have hsame : Same s.table (effect s .tick).table :=
      ⟨⟨fun _ => rfl, fun _ => rfl, rfl⟩, fun _ => .inl rfl⟩
    exact .same hsame (fun _ => rfl) fun _ _ _ _ => rfl

/-! ## The invariants -/

/-- Pids are handed out once, live processes have one, and every child that is being created
is an `EMBRYO` of one parent. -/
structure Numbered (s : State) : Prop where
  /-- `nextpid` has not wrapped. -/
  nextpid_pos : 0 < s.table.nextpid
  /-- Free slots carry 0 or an old pid. -/
  pid_nonneg : ∀ i, 0 ≤ (s.table.proc i).pid
  /-- Every pid was handed out. -/
  pid_lt : ∀ i, (s.table.proc i).pid < s.table.nextpid
  /-- No two slots carry the same pid. -/
  distinct : ∀ i j, (s.table.proc i).pid = (s.table.proc j).pid → 0 < (s.table.proc i).pid → i = j
  /-- Slots in use have a pid. -/
  used : ∀ i, (s.table.proc i).state ≠ .unused → 0 < (s.table.proc i).pid
  /-- Children in `fork` are embryos. -/
  embryo : ∀ cur np, (s.forkPc cur).child = some np → (s.table.proc np).state = .embryo
  /-- Children in `fork` have one parent. -/
  parent : ∀ cur cur' np, (s.forkPc cur).child = some np → (s.forkPc cur').child = some np →
    cur = cur'

/-- The counters are the numbers of calls since the creation of the process. -/
structure Counted (trace : List Action) (s : State) : Prop where
  /-- Within the counters. -/
  counts : ∀ i, 0 < (s.table.proc i).pid → ∀ id : Fin maxSyscall,
    (s.table.proc i).syscallCount id = callsSince trace i (s.table.proc i).pid id
  /-- Beyond them. -/
  beyond : ∀ i pid, callsSince trace i pid maxSyscall = 0

/-- Slots may give up their pid when they are freed, and children may leave `fork`. -/
theorem Numbered.keep {s s' : State} (hnum : Numbered s)
    (hnextpid : s'.table.nextpid = s.table.nextpid)
    (hpid : ∀ j, (s'.table.proc j).pid = (s.table.proc j).pid ∨
      (s'.table.proc j).pid = 0 ∧ (s'.table.proc j).state = .unused)
    (hused : ∀ j, (s'.table.proc j).state ≠ .unused → (s.table.proc j).state ≠ .unused)
    (hchild : ∀ cur np, (s'.forkPc cur).child = some np →
      (s.forkPc cur).child = some np ∧ (s'.table.proc np).state = (s.table.proc np).state) :
    Numbered s' := by
  have hpositive : ∀ j, 0 < (s'.table.proc j).pid →
      (s'.table.proc j).pid = (s.table.proc j).pid := by
    intro j hj
    rcases hpid j with hsame | ⟨hzero, -⟩
    · exact hsame
    · omega
  constructor
  · rw [hnextpid]
    exact hnum.nextpid_pos
  · intro i
    rcases hpid i with hsame | ⟨hzero, -⟩
    · rw [hsame]
      exact hnum.pid_nonneg i
    · rw [hzero]
  · intro i
    rw [hnextpid]
    rcases hpid i with hsame | ⟨hzero, -⟩
    · rw [hsame]
      exact hnum.pid_lt i
    · rw [hzero]
      exact hnum.nextpid_pos
  · intro i j hij hi
    have hi' := hpositive i hi
    have hj' := hpositive j (hij ▸ hi)
    exact hnum.distinct i j (by rw [← hi', ← hj', hij]) (hi' ▸ hi)
  · intro i hi
    rcases hpid i with hsame | ⟨-, hunused⟩
    · rw [hsame]
      exact hnum.used i (hused i hi)
    · exact absurd hunused hi
  · intro cur np hnp
    obtain ⟨hold, hstate⟩ := hchild cur np hnp
    rw [hstate]
    exact hnum.embryo cur np hold
  · intro cur cur' np hnp hnp'
    exact hnum.parent cur cur' np (hchild cur np hnp).1 (hchild cur' np hnp').1

/-- `allocproc` numbers a free slot, if `nextpid` does not wrap. -/
theorem Numbered.allocproc {s s' : State} {cur np : Slot} (hnum : Numbered s)
    (hunused : (s.table.proc np).state = .unused) (hmax : s.table.nextpid < intMax)
    (htable : s'.table = s.table.allocprocEmbryo np)
    (hchild : ∀ i, (s'.forkPc i).child = if i = cur then some np else (s.forkPc i).child) :
    Numbered s' := by
  have hpos := hnum.nextpid_pos
  have hproc : ∀ j, j ≠ np → s'.table.proc j = s.table.proc j := by
    intro j hj
    simp [htable, allocprocEmbryo, modify_proc_of_ne hj]
  have hpid : (s'.table.proc np).pid = s.table.nextpid := by simp [htable, allocprocEmbryo]
  have hstate : (s'.table.proc np).state = .embryo := by simp [htable, allocprocEmbryo]
  have hnext : s'.table.nextpid = s.table.nextpid + 1 := by
    simp [htable, allocprocEmbryo, wrapInt_succ hpos.le hmax]
  have hold : ∀ cur', (s.forkPc cur').child ≠ some np := by
    intro cur' hcur'
    have hembryo := hnum.embryo cur' np hcur'
    simp [hunused] at hembryo
  constructor
  · omega
  · intro i
    by_cases hi : i = np
    · rw [hi, hpid]
      exact hpos.le
    · rw [hproc i hi]
      exact hnum.pid_nonneg i
  · intro i
    by_cases hi : i = np
    · rw [hi, hpid, hnext]
      omega
    · have hlt := hnum.pid_lt i
      rw [hproc i hi, hnext]
      omega
  · intro i j hij hi
    -- the new pid is larger than all others
    by_cases hinp : i = np <;> by_cases hjnp : j = np
    · rw [hinp, hjnp]
    · rw [hinp, hpid, hproc j hjnp] at hij
      have hlt := hnum.pid_lt j
      omega
    · rw [hjnp, hpid, hproc i hinp] at hij
      have hlt := hnum.pid_lt i
      omega
    · rw [hproc i hinp, hproc j hjnp] at hij
      rw [hproc i hinp] at hi
      exact hnum.distinct i j hij hi
  · intro i hi
    by_cases hinp : i = np
    · rw [hinp, hpid]
      exact hpos
    · rw [hproc i hinp] at hi ⊢
      exact hnum.used i hi
  · intro cur' np' hnp'
    rw [hchild] at hnp'
    split_ifs at hnp' with hcur'
    · cases hnp'
      exact hstate
    · have hne : np' ≠ np := fun h => hold cur' (h ▸ hnp')
      rw [hproc np' hne]
      exact hnum.embryo cur' np' hnp'
  · intro cur₁ cur₂ np' h₁ h₂
    rw [hchild] at h₁ h₂
    split_ifs at h₁ h₂ with hcur₁ hcur₂ hcur₂
    · rw [hcur₁, hcur₂]
    · cases h₁
      exact absurd h₂ (hold cur₂)
    · cases h₂
      exact absurd h₁ (hold cur₁)
    · exact hnum.parent cur₁ cur₂ np' h₁ h₂

/-- Charging a call changes nothing but counters, if the number is one of a counter. -/
theorem countSyscall_eq {t : PTable} {pid : ℤ} {id : ℕ} {cur : Slot} (hid : id < maxSyscall)
    (hcur : (t.proc cur).pid = pid) (hunique : ∀ j, (t.proc j).pid = pid → j = cur) :
    t.countSyscall pid id = { t with
      proc := fun j => { t.proc j with
        syscallCount := fun k =>
          if j = cur ∧ k = ⟨id, hid⟩ then wrapInt ((t.proc j).syscallCount k + 1)
          else (t.proc j).syscallCount k } } := by
  have hfind : t.findSlot (fun p => p.pid == pid) = some cur :=
    findSlot_eq_some_of_unique (by simp [hcur]) (by simpa using hunique)
  simp only [PTable.countSyscall, hfind, PTable.modify, PTable.mk.injEq, and_self, and_true]
  funext j
  by_cases hj : j = cur <;> simp [hj, Proc.incrCount, hid]

/-- Every step keeps the numbering, if `nextpid` does not wrap. -/
theorem Numbered.step {s s' : State} {a : Action} (hnum : Numbered s) (haccount : Account s a s')
    (hguard : Accountable s a) : Numbered s' := by
  cases haccount with
  | allocproc hunused htable hchild => exact hnum.allocproc hunused hguard htable hchild
  | @settle _ _ cur np hnp haccounts hstates hchild hcalls =>
    refine hnum.keep haccounts.nextpid (fun j => .inl (haccounts.pid j)) ?_ ?_
    · intro j hj
      by_cases hjnp : j = np
      · rw [hjnp, hnum.embryo cur np hnp]
        exact nofun
      · exact hstates j hjnp ▸ hj
    · intro cur' np' hnp'
      rw [hchild] at hnp'
      split_ifs at hnp' with hcur'
      have hne : np' ≠ np := fun h => hcur' (hnum.parent _ _ _ (h ▸ hnp') hnp)
      exact ⟨hnp', hstates np' hne⟩
  | @reap cur i _ f hzombie htable hpid hunused hchild =>
    refine hnum.keep (by rw [htable, modify_nextpid]) ?_ ?_ ?_
    · intro j
      by_cases hj : j = i
      · rw [htable, hj, modify_proc_self]
        exact .inr ⟨hpid, hunused⟩
      · rw [htable, modify_proc_of_ne hj]
        exact .inl rfl
    · intro j hj
      by_cases hji : j = i
      · rw [hji, hzombie]
        exact nofun
      · rwa [htable, modify_proc_of_ne hji] at hj
    · intro cur' np hnp
      rw [hchild] at hnp
      have hne : np ≠ i := by
        rintro rfl
        have hembryo := hnum.embryo cur' np hnp
        simp [hzombie] at hembryo
      rw [htable, modify_proc_of_ne hne]
      exact ⟨hnp, rfl⟩
  | @complete cur c _ hrunning hpid htable hchild =>
    obtain ⟨hid, -⟩ := hguard
    have hlive : 0 < (s.table.proc cur).pid := hnum.used cur (by simp [hrunning])
    rw [countSyscall_eq hid hpid.symm fun j hj =>
      hnum.distinct j cur (hj.trans hpid) (hj.trans hpid ▸ hlive)] at htable
    have hproc : ∀ j, (s'.table.proc j).pid = (s.table.proc j).pid ∧
        (s'.table.proc j).state = (s.table.proc j).state := by
      intro j
      rw [htable]
      exact ⟨rfl, rfl⟩
    refine hnum.keep (by rw [htable]) (fun j => .inl (hproc j).1) (fun j hj => (hproc j).2 ▸ hj) ?_
    intro cur' np hnp
    exact ⟨hchild cur' ▸ hnp, (hproc np).2⟩
  | same htable hchild hcalls =>
    refine hnum.keep htable.nextpid (fun j => .inl (htable.pid j)) ?_ ?_
    · intro j hj
      rcases htable.state j with hsame | ⟨hsettled, -⟩
      · exact hsame ▸ hj
      · exact hsettled.1
    · intro cur np hnp
      rw [hchild] at hnp
      refine ⟨hnp, (htable.state np).resolve_right ?_⟩
      rintro ⟨hsettled, -⟩
      exact hsettled.2 (hnum.embryo cur np hnp)

/-- A step that keeps the accounts and makes no call that counts. -/
theorem Counted.same {trace : List Action} {s s' : State} {a : Action} (hcount : Counted trace s)
    (haccounts : SameAccounts s.table s'.table)
    (hcalls : ∀ trace i pid id, callsSince (a :: trace) i pid id = callsSince trace i pid id) :
    Counted (a :: trace) s' := by
  constructor
  · intro i hi id
    rw [haccounts.pid] at hi ⊢
    rw [haccounts.syscallCount, hcalls]
    exact hcount.counts i hi id
  · intro i pid
    rw [hcalls]
    exact hcount.beyond i pid

/-- Charging a call of a running process adds one to the one counter whose number of calls
has grown. -/
theorem Counted.complete {trace : List Action} {s s' : State} {cur : Slot} {c : Call}
    (hcount : Counted trace s) (hnum : Numbered s)
    (hrunning : (s.table.proc cur).state = .running) (hpid : c.pid = (s.table.proc cur).pid)
    (hid : c.id < maxSyscall) (hmax : (s.table.proc cur).syscallCount ⟨c.id, hid⟩ < intMax)
    (htable : s'.table = s.table.countSyscall c.pid c.id) :
    Counted (.complete cur c :: trace) s' := by
  have hlive : 0 < (s.table.proc cur).pid := hnum.used cur (by simp [hrunning])
  have hunique : ∀ j, (s.table.proc j).pid = c.pid → j = cur := fun j hj =>
    hnum.distinct j cur (hj.trans hpid) (hj.trans hpid ▸ hlive)
  rw [countSyscall_eq hid hpid.symm hunique] at htable
  constructor
  · intro j hj id
    rw [htable] at hj ⊢
    simp only [callsSince]
    have hold := hcount.counts j hj id
    by_cases hcharged : j = cur ∧ id = ⟨c.id, hid⟩
    · obtain ⟨rfl, rfl⟩ := hcharged
      rw [if_pos ⟨rfl, rfl⟩, if_pos ⟨hpid, rfl⟩, wrapInt_succ (by omega) hmax, hold]
      simp
    · have hother : ¬ (c.pid = (s.table.proc j).pid ∧ c.id = id) := by
        rintro ⟨hj', hid'⟩
        exact hcharged ⟨hunique j hj'.symm, Fin.ext hid'.symm⟩
      rw [if_neg hcharged, if_neg hother, hold]
      simp
  · intro i pid
    simp only [callsSince, hcount.beyond i pid]
    rw [if_neg]
    rintro ⟨-, hbeyond⟩
    omega

/-- Every accountable step keeps the counters exact. -/
theorem Counted.step {trace : List Action} {s s' : State} {a : Action} (hcount : Counted trace s)
    (hnum : Numbered s) (haccount : Account s a s') (hguard : Accountable s a) :
    Counted (a :: trace) s' := by
  cases haccount with
  | @allocproc cur np _ hunused htable hchild =>
    constructor
    · intro i hi id
      by_cases hnp : i = np
      · subst hnp
        simp [htable, allocprocEmbryo, callsSince]
      · have hproc : s'.table.proc i = s.table.proc i := by
          simp [htable, allocprocEmbryo, modify_proc_of_ne hnp]
        rw [hproc] at hi ⊢
        simp only [callsSince, if_neg (Ne.symm hnp)]
        exact hcount.counts i hi id
    · intro i pid
      simp only [callsSince, hcount.beyond, ite_self]
  | settle hnp haccounts hstates hchild hcalls => exact hcount.same haccounts hcalls
  | @reap cur i _ f hzombie htable hpid hunused hchild =>
    refine ⟨fun j hj id => ?_, hcount.beyond⟩
    rw [htable] at hj ⊢
    by_cases hji : j = i
    · rw [hji, modify_proc_self, hpid] at hj
      exact absurd hj (lt_irrefl 0)
    · rw [modify_proc_of_ne hji] at hj ⊢
      exact hcount.counts j hj id
  | complete hrunning hpid htable hchild =>
    obtain ⟨hid, hmax⟩ := hguard
    exact hcount.complete hnum hrunning hpid hid hmax htable
  | same htable hchild hcalls => exact hcount.same htable.toSameAccounts hcalls

/-! ## Whole runs -/

/-- After `userinit` the first slot has pid 1, and no call is recorded. -/
theorem accounted_boot (kstack pgdir root : ℕ) :
    Numbered (boot kstack pgdir root) ∧ Counted [] (boot kstack pgdir root) := by
  have hproc : ∀ i, ((boot kstack pgdir root).table.proc i).pid = if i = 0 then 1 else 0 := by
    intro i
    by_cases hi : i = 0 <;>
      simp [boot, userinit, allocprocInit, allocprocEmbryo, modify_proc, hi, PTable.zero, Proc.zero]
  have hstate : ∀ i, ((boot kstack pgdir root).table.proc i).state =
      if i = 0 then .runnable else .unused := by
    intro i
    by_cases hi : i = 0 <;>
      simp [boot, userinit, allocprocInit, allocprocEmbryo, modify_proc, hi, PTable.zero, Proc.zero]
  have hnext : (boot kstack pgdir root).table.nextpid = 2 := rfl
  refine ⟨⟨by rw [hnext]; decide, fun i => ?_, fun i => ?_, fun i j hij hi => ?_, fun i hi => ?_,
    nofun, nofun⟩, ⟨fun i hi id => ?_, fun _ _ => rfl⟩⟩
  · rw [hproc]
    split_ifs <;> decide
  · rw [hproc, hnext]
    split_ifs <;> decide
  · rw [hproc] at hij hi
    rw [hproc] at hij
    split_ifs at hij hi with hi0 hj0
    · rw [hi0, hj0]
    · omega
    · omega
    · omega
  · rw [hstate] at hi
    rw [hproc]
    split_ifs at hi ⊢
    · decide
    · exact absurd rfl hi
  · by_cases hi0 : i = 0 <;>
      simp [boot, userinit, allocprocInit, allocprocEmbryo, modify_proc, hi0, PTable.zero,
        Proc.zero, callsSince]

/-- Both invariants hold throughout a run of accountable steps. -/
theorem accounted_run {kstack pgdir root : ℕ} {trace : List Action} {s : State}
    (hrun : Run step (fun _ => Accountable) (boot kstack pgdir root) trace s) :
    Numbered s ∧ Counted trace s := by
  refine Run.invariant (I := fun trace s => Numbered s ∧ Counted trace s)
    (accounted_boot kstack pgdir root) ?_ hrun
  intro trace s a s' ⟨hnum, hcount⟩ hguard hstep
  have haccount := account_of_step hstep
  exact ⟨hnum.step haccount hguard, hcount.step hnum haccount hguard⟩

/-- Exact counters are read back by `invoked_syscalls`. -/
theorem Counted.countersExact {trace : List Action} {s : State} (hcount : Counted trace s)
    (hnum : Numbered s) : CountersExact trace s.table := by
  intro i hi id hid n
  have hpid := hnum.used i hi
  rw [mem_invokedCounts]
  constructor
  · rintro ⟨-, j, hj, hlt, hn, hpos⟩
    obtain rfl : j = i := hnum.distinct j i hj (hj ▸ hpid)
    exact ⟨hn.trans (hcount.counts j hpid ⟨id, hlt⟩), hpos⟩
  · rintro ⟨hn, hpos⟩
    have hlt : id < maxSyscall := by
      by_contra hge
      -- the only number without a counter has no calls
      obtain rfl : id = maxSyscall := by
        have hnelem : nelemSyscalls = maxSyscall + 1 := rfl
        have := hid.2
        omega
      rw [hcount.beyond] at hn
      omega
    exact ⟨⟨hpid, hnum.pid_lt i⟩, i, rfl, hlt, hn.trans (hcount.counts i hpid ⟨id, hlt⟩).symm, hpos⟩

/-- In a run whose steps are all accountable the counters that `invoked_syscalls` reads are
exact in every state, and `register_syscall` changes nothing but counters. -/
theorem syscall_accounting {kstack pgdir root : ℕ} {trace : List Action} {s : State}
    (hrun : Run step (fun _ => Accountable) (boot kstack pgdir root) trace s) :
    CountersExact trace s.table ∧
      ∀ a s', Accountable s a → step s a = some s' → Confined s s' a := by
  obtain ⟨hnum, hcount⟩ := accounted_run hrun
  refine ⟨hcount.countersExact hnum, fun a s' hguard hstep => ?_⟩
  obtain ⟨henabled, rfl⟩ := step_eq_some.mp hstep
  cases a with
  | complete cur c =>
    obtain ⟨hid, -⟩ := hguard
    have hpid : c.pid = (s.table.proc cur).pid := henabled.2.1
    have hlive := hnum.used cur (by simp [henabled.1.1])
    exact ⟨hid, _, countSyscall_eq hid hpid.symm fun j hj =>
      hnum.distinct j cur (hj.trans hpid) (hj.trans hpid ▸ hlive)⟩
  | _ => trivial

/-- Init forks and both processes call `getpid`. -/
def forkAndGetpid : List Action :=
  [.dispatch 0, .allocproc 0 1, .kalloc 0 1 4096, .copyuvm 0 1 8192, .forkRunnable 0 1,
    .complete 0 ⟨1, sysFork, "fork", ⟨0, 0, 0, 1, 1, 2024⟩⟩, .dispatch 1,
    .complete 1 ⟨2, sysGetpid, "getpid", ⟨1, 0, 0, 1, 1, 2024⟩⟩,
    .complete 0 ⟨1, sysGetpid, "getpid", ⟨2, 0, 0, 1, 1, 2024⟩⟩]

/-- After that run the counters of both processes are exact. -/
theorem syscall_accounting_forkAndGetpid :
    ∃ s, exec step (fun _ => Accountable) [] (boot 4096 8192 1) forkAndGetpid = some s ∧
      CountersExact forkAndGetpid.reverse s.table := by
  have hexec : (exec step (fun _ => Accountable) [] (boot 4096 8192 1) forkAndGetpid).isSome := by
    decide +kernel
  obtain ⟨s, hs⟩ := Option.isSome_iff_exists.mp hexec
  exact ⟨s, hs, (syscall_accounting (run_of_exec hs)).1⟩

/-- A call of `log_syscalls` gives the caller a lottery ticket. -/
theorem syscall_accounting_fails :
    ¬ ∀ (trace : List Action) (s : State), Run step free (boot 4096 8192 1) trace s →
      CountersExact trace s.table ∧ ∀ a s', step s a = some s' → Confined s s' a := by
  intro hclaim
  have hticket : (exec step free [] (boot 4096 8192 1) [.dispatch 0]).any (fun s =>
      (step s
        (.complete 0 ⟨1, sysLogSyscalls, "log_syscalls", ⟨0, 0, 0, 1, 1, 2024⟩⟩)).any fun s' =>
        (s.table.proc 0).ticket == 10 && (s'.table.proc 0).ticket == 11) = true := by
    decide +kernel
  obtain ⟨s, hs, hnext⟩ := (Option.any_eq_true _ _).mp hticket
  obtain ⟨s', hs', hchange⟩ := (Option.any_eq_true _ _).mp hnext
  simp only [Bool.and_eq_true, beq_iff_eq] at hchange
  obtain ⟨-, counts, htable⟩ := (hclaim _ s (run_of_exec hs)).2 _ s' hs'
  simp [htable, hchange.1] at hchange

end ProcessRun

end Xv6
