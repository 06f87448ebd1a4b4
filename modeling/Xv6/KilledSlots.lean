import Xv6.ProcessRun

/-!
# No process is born killed

`kill` compares pids only, so it also finds free slots: those that carry 0, and those that
carry the pid of a process whose creation failed. `allocproc` does not clear the mark that
`kill` leaves there. Free slots stay unmarked exactly as long as no call of `kill` hits one,
or hits a slot that `allocproc` is still setting up, and no child is killed before the
`fork` that creates it fails.
-/

namespace Xv6.ProcessRun

open GuardedRun PTable

/-- What is claimed of a step: `kill` succeeds only on a slot in use, and `allocproc` hands
out no slot that is marked, neither when it takes the slot nor when it returns it. -/
def StepSafe (s : State) : Action → Prop
  | .kill _ pid =>
      (s.table.kill pid).1 = 0 → ∃ i, (s.table.proc i).pid = pid ∧ (s.table.proc i).state ≠ .unused
  | .allocproc cur np => ((effect s (.allocproc cur np)).table.proc np).killed = 0
  | .kalloc cur np kstack =>
      kstack ≠ 0 → ((effect s (.kalloc cur np kstack)).table.proc np).killed = 0
  | _ => True

/-- The steps that leave no mark on a free slot: the slot that `kill` finds is in use and not
one that `allocproc` is still setting up, and a child is not marked when `copyuvm` fails. -/
def SparesFree (s : State) : Action → Prop
  | .kill _ pid =>
      ∀ i, s.table.findSlot (fun p => p.pid == pid) = some i →
        (s.table.proc i).state ≠ .unused ∧ ∀ cur, s.forkPc cur ≠ .embryo i
  | .copyuvm _ np pgdir => pgdir = 0 → (s.table.proc np).killed = 0
  | _ => True

instance (s : State) : ∀ a, Decidable (SparesFree s a)
  | .kill _ pid =>
      inferInstanceAs (Decidable (∀ i, s.table.findSlot (fun p => p.pid == pid) = some i →
        (s.table.proc i).state ≠ .unused ∧ ∀ cur, s.forkPc cur ≠ .embryo i))
  | .copyuvm _ np pgdir => inferInstanceAs (Decidable (pgdir = 0 → (s.table.proc np).killed = 0))
  | .allocproc _ _ | .kalloc _ _ _ | .forkRunnable _ _ | .exit _ | .wait _ | .complete _ _
  | .dispatch _ | .yield _ | .sleep _ _ | .resume _ | .wakeup _ | .tick => isTrue trivial

/-- No free slot is marked, and none of the given others. -/
def Unmarked (fresh : Set Slot) (t : PTable) : Prop :=
  ∀ i, (t.proc i).state = .unused ∨ i ∈ fresh → (t.proc i).killed = 0

/-- The slots that `allocproc` has taken and not returned yet. -/
def State.fresh (s : State) : Set Slot := {np | ∃ cur, s.forkPc cur = .embryo np}

section

variable {fresh : Set Slot} {t : PTable}

/-- Quiet changes mark nothing and free nothing. -/
theorem Unmarked.quiet {t' : PTable} (hfree : Unmarked fresh t) (hquiet : Quiet t t') :
    Unmarked fresh t' := by
  intro i hi
  rw [hquiet.killed i]
  rcases hquiet.state i with hsame | ⟨-, hwoken⟩
  · exact hfree i (hsame ▸ hi)
  · rw [hwoken] at hi
    exact hfree i (.inr (hi.resolve_left nofun))

/-- A change of one slot that leaves it unmarked if it is free or fresh. -/
theorem Unmarked.modify (hfree : Unmarked fresh t) {i : Slot} {f : Proc → Proc}
    (hslot : (f (t.proc i)).state = .unused ∨ i ∈ fresh → (f (t.proc i)).killed = 0) :
    Unmarked fresh (t.modify i f) := by
  intro j hj
  by_cases hji : j = i
  · rw [hji, modify_proc_self] at hj ⊢
    exact hslot hj
  · rw [modify_proc_of_ne hji] at hj ⊢
    exact hfree j hj

/-- A change of one slot that keeps its mark and does not free it. -/
theorem Unmarked.modify_keep (hfree : Unmarked fresh t) {i : Slot} {f : Proc → Proc}
    (hkilled : (f (t.proc i)).killed = (t.proc i).killed)
    (hstate : (f (t.proc i)).state = .unused → (t.proc i).state = .unused) :
    Unmarked fresh (t.modify i f) :=
  hfree.modify fun hi => hkilled ▸ hfree i (hi.imp_left hstate)

/-- Charging a system call changes neither state nor mark. -/
theorem incrCount_state_killed (p : Proc) (id : ℕ) :
    (p.incrCount id).state = p.state ∧ (p.incrCount id).killed = p.killed := by
  unfold Proc.incrCount
  split_ifs <;> exact ⟨rfl, rfl⟩

/-- Charging a system call marks no free slot. -/
theorem Unmarked.countSyscall (hfree : Unmarked fresh t) (pid : ℤ) (id : ℕ) :
    Unmarked fresh (t.countSyscall pid id) := by
  unfold PTable.countSyscall
  split
  · rename_i i _
    obtain ⟨hstate, hkilled⟩ := incrCount_state_killed (t.proc i) id
    exact hfree.modify_keep hkilled fun h => hstate ▸ h
  · exact hfree

/-- `kill` marks no free slot if the slot it finds is in use and not fresh. -/
theorem Unmarked.kill (hfree : Unmarked fresh t) {pid : ℤ}
    (huse : ∀ i, t.findSlot (fun p => p.pid == pid) = some i →
      (t.proc i).state ≠ .unused ∧ i ∉ fresh) : Unmarked fresh (t.kill pid).2 := by
  unfold PTable.kill
  split
  · rename_i i hfind
    obtain ⟨hstate, hfresh⟩ := huse i hfind
    dsimp only
    refine hfree.modify ?_
    rintro (hunused | hmem)
    · dsimp only at hunused
      split_ifs at hunused
      exact absurd hunused hstate
    · exact absurd hmem hfresh
  · exact hfree

/-- `wait` marks no free slot, whatever its scan ends in. -/
theorem Unmarked.wait {s : State} (hfree : Unmarked fresh s.table) (cur : Slot) :
    Unmarked fresh (effect s (.wait cur)).table := by
  simp only [effect]
  rcases wait_spec s.table cur with ⟨pid, i, -, -, hwait⟩ | hwait | hwait
  · simp only [hwait]
    exact hfree.modify fun _ => rfl
  · simpa only [hwait] using hfree
  · simp only [hwait, PTable.sleep]
    exact hfree.modify_keep rfl (by simp)

/-- The demand is weaker for fewer fresh slots. -/
theorem Unmarked.mono {fresh' : Set Slot} (hfree : Unmarked fresh t) (hsub : fresh' ⊆ fresh) :
    Unmarked fresh' t := fun i hi => hfree i (hi.imp_right (hsub ·))

end

/-- Moving a process to a later position in `fork` makes no slot fresh. -/
theorem fresh_setForkPc {s : State} {cur : Slot} {pc : ForkPc} (hpc : ∀ np, pc ≠ .embryo np) :
    (s.setForkPc cur pc).fresh ⊆ s.fresh := by
  rintro np ⟨cur', hcur'⟩
  simp only [State.setForkPc] at hcur'
  split_ifs at hcur'
  · exact absurd hcur' (hpc np)
  · exact ⟨cur', hcur'⟩

/-- The slot that `allocproc` takes is fresh from then on, and no other one becomes so. -/
theorem fresh_allocproc {s : State} {cur np : Slot} :
    (s.setForkPc cur (.embryo np)).fresh ⊆ insert np s.fresh := by
  rintro np' ⟨cur', hcur'⟩
  simp only [State.setForkPc] at hcur'
  split_ifs at hcur'
  · exact .inl (by cases hcur'; rfl)
  · exact .inr ⟨cur', hcur'⟩

/-- Taking an `UNUSED` slot in `allocproc` keeps the free slots unmarked, and the slot taken
is fresh. -/
theorem Unmarked.allocprocEmbryo {fresh : Set Slot} {t : PTable} (hfree : Unmarked fresh t)
    {np : Slot} (hunused : (t.proc np).state = .unused) :
    Unmarked (insert np fresh) (t.allocprocEmbryo np) := by
  have hnp : (t.proc np).killed = 0 := hfree np (.inl hunused)
  intro i hi
  simp only [PTable.allocprocEmbryo, modify_proc] at hi ⊢
  by_cases hnew : i = np
  · rw [if_pos hnew, hnew]
    exact hnp
  · rw [if_neg hnew] at hi ⊢
    exact hfree i (hi.imp_right fun hmem => hmem.resolve_left hnew)

/-- Every enabled step that spares the free slots keeps them unmarked. -/
theorem Unmarked.effect {s : State} {a : Action} (hfree : Unmarked s.fresh s.table)
    (henabled : Enabled s a) (hguard : SparesFree s a) :
    Unmarked (effect s a).fresh (effect s a).table := by
  cases a with
  | allocproc cur np =>
    have hunused : (s.table.proc np).state = .unused := by simpa using findSlot_some henabled.2
    exact (hfree.allocprocEmbryo hunused).mono fresh_allocproc
  | kalloc cur np kstack =>
    have hnp : (s.table.proc np).killed = 0 := hfree np (.inr ⟨cur, henabled.2⟩)
    by_cases hfail : kstack = 0
    · have hkeep : Unmarked s.fresh (s.table.allocprocFail np) := hfree.modify fun _ => hnp
      simp only [ProcessRun.effect, if_pos hfail, State.setForkPc_table]
      exact hkeep.mono (fresh_setForkPc nofun)
    · have hkeep : Unmarked s.fresh (s.table.allocprocInit np kstack) :=
        hfree.quiet (quiet_modify rfl rfl rfl rfl)
      simp only [ProcessRun.effect, if_neg hfail, State.setForkPc_table]
      exact hkeep.mono (fresh_setForkPc nofun)
  | copyuvm cur np pgdir =>
    by_cases hfail : pgdir = 0
    · have hkeep : Unmarked s.fresh (s.table.forkFail np) := hfree.modify fun _ => hguard hfail
      simp only [ProcessRun.effect, if_pos hfail, State.setForkPc_table]
      exact hkeep.mono (fresh_setForkPc nofun)
    · have hkeep : Unmarked s.fresh (s.table.forkCopy cur np pgdir) :=
        hfree.quiet (quiet_modify rfl rfl rfl rfl)
      simp only [ProcessRun.effect, if_neg hfail, State.setForkPc_table]
      exact hkeep.mono (fresh_setForkPc nofun)
  | forkRunnable cur np =>
    have hkeep : Unmarked s.fresh (s.table.forkRunnable np) := hfree.modify_keep rfl nofun
    exact hkeep.mono (fresh_setForkPc nofun)
  | exit cur =>
    have hfamily : Unmarked s.fresh (s.table.exitFamily cur) := hfree.quiet (quiet_exitFamily _ _)
    change Unmarked s.fresh (s.table.exit cur)
    rw [PTable.exit]
    exact hfamily.modify_keep (by simp only) (by simp)
  | wait cur =>
    have hforkPc : (ProcessRun.effect s (.wait cur)).fresh = s.fresh := by
      simp only [ProcessRun.effect]
      split <;> rfl
    rw [hforkPc]
    exact hfree.wait cur
  | kill cur pid =>
    have huse : ∀ i, s.table.findSlot (fun p => p.pid == pid) = some i →
        (s.table.proc i).state ≠ .unused ∧ i ∉ s.fresh := by
      intro i hfind
      obtain ⟨hstate, hfresh⟩ := hguard i hfind
      exact ⟨hstate, fun ⟨cur', hcur'⟩ => hfresh cur' hcur'⟩
    exact hfree.kill huse
  | complete cur c => exact hfree.countSyscall c.pid c.id
  | dispatch i =>
    have hkeep : Unmarked s.fresh (s.table.dispatch i) := hfree.modify_keep rfl nofun
    exact hkeep
  | yield i =>
    have hkeep : Unmarked s.fresh (s.table.yield i) := hfree.modify_keep rfl nofun
    exact hkeep
  | sleep i chan =>
    have hkeep : Unmarked s.fresh (s.table.sleep i (some chan)) := hfree.modify_keep rfl nofun
    exact hkeep
  | resume i =>
    have hquiet : Quiet s.table (s.table.sleepReturn i) := quiet_modify rfl rfl rfl rfl
    exact hfree.quiet hquiet
  | wakeup chan => exact hfree.quiet (quiet_wakeup1 _ _)
  | tick => exact hfree

/-- After `userinit` no slot is marked. -/
theorem unmarked_boot (kstack pgdir root : ℕ) :
    Unmarked (boot kstack pgdir root).fresh (boot kstack pgdir root).table := by
  intro i _
  by_cases h0 : i = 0 <;>
    simp [boot, userinit, allocprocInit, allocprocEmbryo, modify_proc, h0, PTable.zero, Proc.zero]

/-- Throughout a run whose steps spare the free slots, those slots are unmarked. -/
theorem unmarked_run {kstack pgdir root : ℕ} {trace : List Action} {s : State}
    (hrun : Run step (fun _ => SparesFree) (boot kstack pgdir root) trace s) :
    Unmarked s.fresh s.table := by
  refine Run.invariant (I := fun _ s => Unmarked s.fresh s.table) (unmarked_boot _ _ _) ?_ hrun
  intro _ s a s' hfree hguard hstep
  obtain ⟨henabled, rfl⟩ := step_eq_some.mp hstep
  exact hfree.effect henabled hguard

/-- In a run whose steps spare the free slots, every step is safe: `kill` succeeds only on
slots in use, and `allocproc` never hands out a marked slot. -/
theorem never_born_killed {kstack pgdir root : ℕ} {trace : List Action} {s s' : State} {a : Action}
    (hrun : Run step (fun _ => SparesFree) (boot kstack pgdir root) trace s)
    (hguard : SparesFree s a) (hstep : step s a = some s') : StepSafe s a := by
  have hfree := unmarked_run hrun
  obtain ⟨henabled, -⟩ := step_eq_some.mp hstep
  cases a with
  | kill cur pid =>
    intro hkill
    unfold PTable.kill at hkill
    split at hkill
    · rename_i i hfind
      exact ⟨i, by simpa using findSlot_some hfind, (hguard i hfind).1⟩
    · cases hkill
  | allocproc cur np =>
    have hunused : (s.table.proc np).state = .unused := by simpa using findSlot_some henabled.2
    simpa [StepSafe, effect, allocprocEmbryo] using hfree np (.inl hunused)
  | kalloc cur np kstack =>
    intro hsome
    simpa [effect, hsome, allocprocInit] using hfree np (.inr ⟨cur, henabled.2⟩)
  | _ => trivial

/-- A fork, a kill of the child, and the child's first run. -/
def forkAndKill : List Action :=
  [.dispatch 0, .allocproc 0 1, .kalloc 0 1 4096, .copyuvm 0 1 8192, .forkRunnable 0 1,
    .kill 0 2, .dispatch 1]

/-- After that run the next slot is handed out unmarked. -/
theorem never_born_killed_forkAndKill :
    ∃ s, exec step (fun _ => SparesFree) [] (boot 4096 8192 1) forkAndKill = some s ∧
      StepSafe s (.allocproc 0 2) := by
  have hnext : (exec step (fun _ => SparesFree) [] (boot 4096 8192 1) forkAndKill).any
      (fun s => (step s (.allocproc 0 2)).isSome) = true := by
    decide +kernel
  obtain ⟨s, hs, hstep⟩ := (Option.any_eq_true _ _).mp hnext
  obtain ⟨s', hs'⟩ := Option.isSome_iff_exists.mp hstep
  exact ⟨s, hs, never_born_killed (run_of_exec hs) trivial hs'⟩

/-- `kill(0)` by init, while the other slots are free, succeeds and marks a free slot, and
`fork` hands that slot out. -/
theorem born_killed :
    ¬ ∀ (trace : List Action) (s s' : State) (a : Action),
      Run step free (boot 4096 8192 1) trace s → step s a = some s' → StepSafe s a := by
  intro hclaim
  have hmarked : (exec step free [] (boot 4096 8192 1) [.dispatch 0, .kill 0 0]).any (fun s =>
      (step s (.allocproc 0 1)).any fun s' => (s'.table.proc 1).killed == 1) = true := by
    decide +kernel
  obtain ⟨s, hs, hnext⟩ := (Option.any_eq_true _ _).mp hmarked
  obtain ⟨s', hs', hkilled⟩ := (Option.any_eq_true _ _).mp hnext
  have hsafe := hclaim _ s s' _ (run_of_exec hs) hs'
  obtain ⟨-, rfl⟩ := step_eq_some.mp hs'
  rw [StepSafe] at hsafe
  simp [hsafe] at hkilled

end Xv6.ProcessRun
