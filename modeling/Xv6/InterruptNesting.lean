import Xv6.Interrupts

/-!
# The nesting of `pushcli`

What the code of a CPU may do next is fixed by the locks that the CPU holds, the calls of
`pushcli` that it has not undone, and whether the process has set its state on the way to
`sched`. From this the depth of the nesting, the interrupt flag and the tests of `sched` follow,
also for a process that goes on on another CPU.
-/

namespace Xv6.Interrupts

open GuardedRun

/-! ## The CPU -/

/-- A CPU with `depth` locks and open calls of `pushcli`, whose interrupt flag was `before` before
the first of them. -/
structure CpuOk (x : Cpu) (depth : ℕ) (before : Option Bool) : Prop where
  /-- `ncli` is the depth. -/
  ncli : x.ncli = depth
  /-- Interrupts are off. -/
  off : 0 < depth → x.intf = false
  /-- `intena` is the flag to be restored. -/
  intena : 0 < depth → ∀ v, before = some v → x.intena = v

variable {x : Cpu} {depth : ℕ} {before : Option Bool}

/-- `pushcli` notes the flag at the first call. -/
theorem CpuOk.pushcli (h : CpuOk x depth before) :
    CpuOk x.pushcli (depth + 1) (if x.ncli = 0 then some x.intf else before) := by
  constructor
  · simp only [Cpu.pushcli, h.ncli]
    push_cast
    rfl
  · exact fun _ => rfl
  · intro _ v hv
    simp only [Cpu.pushcli]
    by_cases hzero : x.ncli = 0
    · rw [if_pos hzero] at hv ⊢
      exact Option.some.inj hv
    · rw [if_neg hzero] at hv ⊢
      have hncli := h.ncli
      exact h.intena (by omega) v hv

/-- `popcli` restores it at the last. -/
theorem CpuOk.popcli (h : CpuOk x (depth + 1) before) :
    ∃ y, x.popcli = some y ∧ CpuOk y depth before ∧
      (y.ncli = 0 → ∀ v, before = some v → y.intf = v) := by
  have hncli := h.ncli
  have hoff := h.off (Nat.succ_pos depth)
  have hdepth : x.ncli - 1 = depth := by
    rw [hncli]
    push_cast
    ring
  have hnonneg : ¬ (x.ncli - 1 < 0) := by omega
  refine ⟨{ x with ncli := x.ncli - 1, intf := decide (x.ncli - 1 = 0) && x.intena }, ?_,
    ⟨hdepth, fun hpos => ?_, fun _ => ?_⟩, fun hzero v hv => ?_⟩
  · unfold Cpu.popcli
    rw [if_neg (by rw [hoff]; exact Bool.false_ne_true)]
    exact if_neg hnonneg
  · have hne : x.ncli - 1 ≠ 0 := by omega
    simp [hne]
  · exact h.intena (Nat.succ_pos depth)
  · simp only at hzero ⊢
    rw [hzero, h.intena (Nat.succ_pos depth) v hv]
    simp

/-- A `pushcli` that is undone within the nesting changes nothing. -/
theorem CpuOk.pushcli_popcli (h : CpuOk x depth before) (hpos : 0 < depth) :
    x.pushcli.popcli = some x := by
  have hncli := h.ncli
  have hoff := h.off hpos
  have hne : x.ncli ≠ 0 := by omega
  have hnonneg : ¬ x.ncli < 0 := by omega
  unfold Cpu.popcli Cpu.pushcli
  simp only [Bool.false_eq_true, if_false, add_sub_cancel_right, if_neg hnonneg, hne, decide_false,
    Bool.false_and]
  rw [← hoff]

/-! ## What a CPU changes -/

variable {C T L : Type*} [DecidableEq C] [DecidableEq T] {s s' s₁ : State C T L} {c d : C} {t : T}
variable {code : List (Instr L)} {lk : L}

namespace State

@[simp] theorem setCurrent_cpu : (s.setCurrent c code).cpu = s.cpu := by
  unfold setCurrent
  split <;> rfl

@[simp] theorem setCurrent_lock : (s.setCurrent c code).lock = s.lock := by
  unfold setCurrent
  split <;> rfl

@[simp] theorem setCurrent_proc : (s.setCurrent c code).proc = s.proc := by
  unfold setCurrent
  split <;> rfl

@[simp] theorem setCurrent_state : (s.setCurrent c code).state = s.state := by
  unfold setCurrent
  split <;> rfl

@[simp] theorem setCurrent_opened : (s.setCurrent c code).opened = s.opened := by
  unfold setCurrent
  split <;> rfl

@[simp] theorem setCurrent_before : (s.setCurrent c code).before = s.before := by
  unfold setCurrent
  split <;> rfl

@[simp] theorem setCurrent_restored : (s.setCurrent c code).restored = s.restored := by
  unfold setCurrent
  split <;> rfl

@[simp] theorem current_setCurrent : (s.setCurrent c code).current c = code := by
  unfold setCurrent
  split
  next hproc =>
    unfold current
    rw [hproc]
    exact Function.update_self _ _ _
  next t hproc =>
    unfold current
    rw [hproc]
    exact Function.update_self _ _ _

end State

/-- Only the CPU `c` and what it executes have changed. -/
structure OnlyAt (s : State C T L) (c : C) (s' : State C T L) : Prop where
  /-- The other CPUs are as before. -/
  cpu : ∀ d, d ≠ c → s'.cpu d = s.cpu d
  /-- They hold the same locks. -/
  lock : ∀ lk d, d ≠ c → (s'.lock lk = some d ↔ s.lock lk = some d)
  /-- All run the same processes. -/
  proc : s'.proc = s.proc
  /-- The schedulers that do not run on `c` have the same to do. -/
  schedulerCode : ∀ d, (d = c → s.proc c ≠ none) → s'.schedulerCode d = s.schedulerCode d
  /-- So have the processes that do not run on `c`. -/
  code : ∀ t, s.proc c ≠ some t → s'.code t = s.code t
  /-- They are in the same state. -/
  state : ∀ t, s.proc c ≠ some t → s'.state t = s.state t
  /-- The others have the same open calls of `pushcli`. -/
  opened : ∀ d, d ≠ c → s'.opened d = s.opened d
  /-- And the same flags to restore. -/
  before : ∀ d, d ≠ c → s'.before d = s.before d

omit [DecidableEq C] [DecidableEq T] in
theorem OnlyAt.trans (h : OnlyAt s c s₁) (h' : OnlyAt s₁ c s') : OnlyAt s c s' where
  cpu d hd := (h'.cpu d hd).trans (h.cpu d hd)
  lock lk d hd := (h'.lock lk d hd).trans (h.lock lk d hd)
  proc := h'.proc.trans h.proc
  schedulerCode d hd := (h'.schedulerCode d (by rwa [h.proc])).trans (h.schedulerCode d hd)
  code t ht := (h'.code t (by rwa [h.proc])).trans (h.code t ht)
  state t ht := (h'.state t (by rwa [h.proc])).trans (h.state t ht)
  opened d hd := (h'.opened d hd).trans (h.opened d hd)
  before d hd := (h'.before d hd).trans (h.before d hd)

theorem onlyAt_setCurrent (s : State C T L) (c : C) (code : List (Instr L)) :
    OnlyAt s c (s.setCurrent c code) := by
  constructor
  · simp
  · simp
  · simp
  · intro d hd
    unfold State.setCurrent
    split
    next hproc =>
      have hne : d ≠ c := fun heq => hd heq hproc
      exact Function.update_of_ne hne _ _
    next => rfl
  · intro t ht
    unfold State.setCurrent
    split
    next => rfl
    next u hproc =>
      have hne : t ≠ u := by
        rintro rfl
        exact ht hproc
      exact Function.update_of_ne hne _ _
  · simp
  · simp
  · simp

omit [DecidableEq T] in
theorem onlyAt_setCpu (s : State C T L) (c : C) (x : Cpu) : OnlyAt s c (s.setCpu c x) where
  cpu _ hd := Function.update_of_ne hd _ _
  lock _ _ _ := Iff.rfl
  proc := rfl
  schedulerCode _ _ := rfl
  code _ _ := rfl
  state _ _ := rfl
  opened _ _ := rfl
  before _ _ := rfl

omit [DecidableEq T] in
theorem onlyAt_pushcli (s : State C T L) (c : C) : OnlyAt s c (s.pushcli c) where
  cpu _ hd := Function.update_of_ne hd _ _
  lock _ _ _ := Iff.rfl
  proc := rfl
  schedulerCode _ _ := rfl
  code _ _ := rfl
  state _ _ := rfl
  opened _ hd := Function.update_of_ne hd _ _
  before d hd := by
    unfold State.pushcli
    dsimp only
    split
    · exact Function.update_of_ne hd _ _
    · rfl

omit [DecidableEq T] in
theorem onlyAt_popcli (hstep : s.popcli c = some s') : OnlyAt s c s' := by
  obtain ⟨x, -, rfl⟩ := Option.map_eq_some_iff.mp hstep
  exact { onlyAt_setCpu s c x with }

omit [DecidableEq T] in
theorem onlyAt_opened (s : State C T L) (c : C) (n : ℕ) :
    OnlyAt s c { s with opened := Function.update s.opened c n } where
  cpu _ _ := rfl
  lock _ _ _ := Iff.rfl
  proc := rfl
  schedulerCode _ _ := rfl
  code _ _ := rfl
  state _ _ := rfl
  opened _ hd := Function.update_of_ne hd _ _
  before _ _ := rfl

omit [DecidableEq T] in
theorem onlyAt_before (s : State C T L) (c : C) (v : Option Bool) :
    OnlyAt s c { s with before := Function.update s.before c v } where
  cpu _ _ := rfl
  lock _ _ _ := Iff.rfl
  proc := rfl
  schedulerCode _ _ := rfl
  code _ _ := rfl
  state _ _ := rfl
  opened _ _ := rfl
  before _ hd := Function.update_of_ne hd _ _

omit [DecidableEq C] in
theorem onlyAt_state (hproc : s.proc c = some t) (x : ProcState) :
    OnlyAt s c { s with state := Function.update s.state t x } where
  cpu _ _ := rfl
  lock _ _ _ := Iff.rfl
  proc := rfl
  schedulerCode _ _ := rfl
  code _ _ := rfl
  state u hu := by
    have hne : u ≠ t := fun heq => hu (heq ▸ hproc)
    exact Function.update_of_ne hne _ _
  opened _ _ := rfl
  before _ _ := rfl

omit [DecidableEq C] [DecidableEq T] in
/-- A lock that is free or held by the CPU is taken or released by it. -/
theorem onlyAt_lock [DecidableEq L] {x : Option C} (hbefore : ∀ d, s.lock lk = some d → d = c)
    (hafter : ∀ d, x = some d → d = c) :
    OnlyAt s c { s with lock := Function.update s.lock lk x } where
  cpu _ _ := rfl
  lock l d hd := by
    by_cases hl : l = lk
    · rw [hl]
      dsimp only
      rw [Function.update_self]
      exact ⟨fun heq => absurd (hafter d heq) hd, fun heq => absurd (hbefore d heq) hd⟩
    · dsimp only
      rw [Function.update_of_ne hl]
  proc := rfl
  schedulerCode _ _ := rfl
  code _ _ := rfl
  state _ _ := rfl
  opened _ _ := rfl
  before _ _ := rfl

/-! ## The code -/

variable [DecidableEq L] {K : Locks L}

/-- The state of a process that runs, by whether it has set it on the way to `sched`. -/
def Own (set : Bool) (x : ProcState) : Prop :=
  if set then x = .runnable ∨ x = .sleeping ∨ x = .zombie else x = .running

/-- The code can be executed with the locks `H` held and `n` open calls of `pushcli`, by a process
that has set its state or not. -/
def Fits (K : Locks L) : Finset L → ℕ → Bool → List (Instr L) → Prop
  | _, _, set, [] => set = false
  | H, n, set, .pushcli :: rest => Fits K H (n + 1) set rest
  | H, n, set, .popcli :: rest => 0 < n ∧ Fits K H (n - 1) set rest
  | H, n, set, .take lk :: rest => 0 < n ∧ Fits K (insert lk H) (n - 1) set rest
  | H, n, set, .release lk :: rest =>
    lk ∈ H ∧ (set = true → lk ≠ K.ptable) ∧ Fits K (H.erase lk) n set rest
  | H, n, set, .sti :: rest => H = ∅ ∧ n = 0 ∧ Fits K H n set rest
  | H, n, _, .setState x :: rest => K.ptable ∈ H ∧ Own true x ∧ Fits K H n true rest
  | H, n, set, .sched :: rest => H = {K.ptable} ∧ n = 0 ∧ set = true ∧ Fits K H n false rest
  | H, n, set, .restore intena before :: rest =>
    H = {K.ptable} ∧ n = 0 ∧ (∀ v, before = some v → intena = v) ∧ Fits K H n set rest
  | H, n, set, .look :: rest => H = {K.ptable} ∧ n = 0 ∧ set = false ∧ Fits K ∅ 0 false rest
  | _, _, set, .iret :: rest => set = false ∧ Fits K ∅ 0 false rest
  | _, _, _, .zombieExit :: _ => True

/-- Between two calls, any locks may be held. -/
theorem Fits.between {H H' : Finset L} {n n' : ℕ} {set : Bool} {code : List (Instr L)}
    (h : Fits K H n set code)
    (hbetween : betweenCalls code = true) : set = false ∧ Fits K H' n' false code := by
  match code, hbetween with
  | [], _ => exact ⟨h, rfl⟩
  | .iret :: rest, _ => exact ⟨h.1, rfl, h.2⟩

variable {H : Finset L} {n : ℕ}

/-- `acquire` adds a lock. -/
theorem fits_acquire (h : Fits K (insert lk H) n false code) :
    Fits K H n false (acquire lk ++ code) :=
  ⟨Nat.succ_pos n, h⟩

/-- `yield` is executed without a lock. -/
theorem fits_yield (h : Fits K ∅ 0 false code) : Fits K ∅ 0 false (yield K ++ code) := by
  refine ⟨Nat.one_pos, Finset.mem_insert_self _ _, Or.inl rfl, rfl, rfl, rfl, ?_⟩
  refine ⟨Finset.mem_insert_self _ _, fun hno => (by cases hno), ?_⟩
  simpa using h

/-- `sleep` is executed with its lock. -/
theorem fits_sleep (h : Fits K {lk} 0 false code) : Fits K {lk} 0 false (sleep K lk ++ code) := by
  unfold sleep
  by_cases hptable : lk = K.ptable
  · rw [if_pos hptable, if_pos hptable]
    rw [hptable] at h ⊢
    exact ⟨Finset.mem_singleton_self _, Or.inr (Or.inl rfl), rfl, rfl, rfl, h⟩
  · rw [if_neg hptable, if_neg hptable]
    have herase : (insert K.ptable {lk} : Finset L).erase lk = {K.ptable} := by
      ext l
      simp only [Finset.mem_erase, Finset.mem_insert, Finset.mem_singleton]
      constructor
      · rintro ⟨hne, heq | heq⟩
        · exact heq
        · exact absurd heq hne
      · rintro rfl
        exact ⟨Ne.symm hptable, Or.inl rfl⟩
    refine ⟨Nat.one_pos, by simp, fun hno => (by cases hno), ?_⟩
    rw [herase]
    refine ⟨Finset.mem_singleton_self _, Or.inr (Or.inl rfl), rfl, rfl, rfl, ?_⟩
    refine ⟨Finset.mem_singleton_self _, fun hno => (by cases hno), ?_⟩
    rw [Finset.erase_singleton]
    exact ⟨Nat.one_pos, by simpa using h⟩

/-- `exit` is executed without a lock. -/
theorem fits_exit : Fits K ∅ 0 false (exit K) := by
  have herase {lk : L} (hne : lk ≠ K.ptable) :
      (insert lk (insert K.ptable ∅) : Finset L).erase lk = insert K.ptable ∅ :=
    Finset.erase_insert (by simpa using hne)
  refine ⟨Nat.one_pos, Finset.mem_insert_self _ _, Or.inr (Or.inr rfl), Nat.one_pos,
    Finset.mem_insert_self _ _, fun _ => K.tickslock_ne, ?_⟩
  rw [herase K.tickslock_ne]
  refine ⟨Nat.one_pos, Finset.mem_insert_self _ _, fun _ => K.cons_ne, ?_⟩
  rw [herase K.cons_ne]
  exact ⟨rfl, rfl, rfl, trivial⟩

/-- A turn of `scheduler` is executed without a lock. -/
theorem fits_scheduler : Fits K ∅ 0 false (scheduler K) := by
  refine ⟨rfl, rfl, Nat.one_pos, ?_⟩
  exact ⟨rfl, rfl, rfl, rfl⟩

/-- `forkret` is executed with `ptable.lock` held. -/
theorem fits_forkret : Fits K {K.ptable} 0 false (forkret K) :=
  ⟨Finset.mem_singleton_self _, fun hno => (by cases hno), rfl⟩

/-! ## The invariant -/

variable [Fintype L]

/-- Each time that `ncli` has come back to 0, the flag has been restored. -/
def Restored (log : List (Option Bool × Bool)) : Prop := ∀ r ∈ log, ∀ v, r.1 = some v → r.2 = v

/-- A CPU is in order, with a process that has set its state or not. -/
structure Ok (K : Locks L) (s : State C T L) (c : C) (set : Bool) : Prop where
  /-- The nesting. -/
  cpu : CpuOk (s.cpu c) ((s.held c).card + s.opened c) (s.before c)
  /-- The code. -/
  fits : Fits K (s.held c) (s.opened c) set (s.current c)
  /-- A process that has set its state holds `ptable.lock`. -/
  holds : set = true → K.ptable ∈ s.held c
  /-- A scheduler has not. -/
  scheduler : s.proc c = none → set = false
  /-- The state of the process. -/
  own : ∀ t, s.proc c = some t → Own set (s.state t)

/-- What holds in every state of a run. -/
structure Inv (K : Locks L) (s : State C T L) : Prop where
  /-- All CPUs are in order. -/
  current : ∀ c, ∃ set, Ok K s c set
  /-- The scheduler of a CPU that runs a process waits in its loop. -/
  scheduler : ∀ c t, s.proc c = some t →
    ∃ rest, s.schedulerCode c = .look :: rest ∧ Fits K {K.ptable} 0 false (.look :: rest)
  /-- A process that no CPU runs goes on with `ptable.lock` held. -/
  parked : ∀ t, (∀ c, s.proc c ≠ some t) → s.state t ≠ .unused →
    Fits K {K.ptable} 0 false (s.code t)
  /-- No process runs on two CPUs. -/
  unique : ∀ c d t, s.proc c = some t → s.proc d = some t → c = d
  /-- The interrupt flag has been restored each time. -/
  restored : Restored s.restored

omit [DecidableEq T] [DecidableEq L] in
theorem mem_held : lk ∈ s.held c ↔ s.lock lk = some c := by
  simp [State.held]

omit [DecidableEq T] [DecidableEq L] in
theorem held_congr (hlock : ∀ lk, s'.lock lk = some d ↔ s.lock lk = some d) :
    s'.held d = s.held d := by
  ext lk
  rw [mem_held, mem_held, hlock]

omit [DecidableEq T] in
/-- When only one CPU has changed, the others are still in order. -/
theorem Inv.onlyAt (h : Inv K s) (hat : OnlyAt s c s') (hc : ∃ set, Ok K s' c set)
    (hrestored : Restored s'.restored) : Inv K s' := by
  constructor
  · intro d
    by_cases hd : d = c
    · rw [hd]
      exact hc
    obtain ⟨set, hok⟩ := h.current d
    have hheld : s'.held d = s.held d := held_congr fun lk => hat.lock lk d hd
    have hother {t : T} (ht : s.proc d = some t) : s.proc c ≠ some t :=
      fun hno => hd (h.unique d c t ht hno)
    have hcurrent : s'.current d = s.current d := by
      unfold State.current
      rw [hat.proc]
      cases hproc : s.proc d with
      | none => exact hat.schedulerCode d fun heq => absurd heq hd
      | some t => exact hat.code t (hother hproc)
    refine ⟨set, ?_, ?_, ?_, ?_, fun t ht => ?_⟩
    · rw [hat.cpu d hd, hheld, hat.opened d hd, hat.before d hd]
      exact hok.cpu
    · rw [hheld, hat.opened d hd, hcurrent]
      exact hok.fits
    · rw [hheld]
      exact hok.holds
    · rw [hat.proc]
      exact hok.scheduler
    · rw [hat.proc] at ht
      rw [hat.state t (hother ht)]
      exact hok.own t ht
  · intro d t ht
    rw [hat.proc] at ht
    obtain ⟨rest, hcode, hfits⟩ := h.scheduler d t ht
    refine ⟨rest, ?_, hfits⟩
    rw [hat.schedulerCode d fun heq hno => ?_]
    · exact hcode
    · rw [← heq, ht] at hno
      cases hno
  · intro t ht hused
    rw [hat.proc] at ht
    rw [hat.state t (ht c)] at hused
    rw [hat.code t (ht c)]
    exact h.parked t ht hused
  · rw [hat.proc]
    exact h.unique
  · exact hrestored

omit [DecidableEq L] in
@[simp] theorem held_setCurrent : (s.setCurrent c code).held d = s.held d :=
  held_congr fun _ => by rw [State.setCurrent_lock]

omit [DecidableEq T] in
theorem held_take :
    State.held { s with lock := Function.update s.lock lk (some c) } c = insert lk (s.held c) := by
  ext l
  rw [mem_held, Finset.mem_insert, mem_held]
  dsimp only
  by_cases hl : l = lk
  · rw [hl, Function.update_self]
    simp
  · rw [Function.update_of_ne hl]
    simp [hl]

omit [DecidableEq T] in
theorem held_release :
    State.held { s with lock := Function.update s.lock lk none } c = (s.held c).erase lk := by
  ext l
  rw [mem_held, Finset.mem_erase, mem_held]
  dsimp only
  by_cases hl : l = lk
  · rw [hl, Function.update_self]
    simp
  · rw [Function.update_of_ne hl]
    simp [hl]

/-- A CPU goes on with the rest of its code. -/
theorem ok_setCurrent {set : Bool}
    (hcpu : CpuOk (s.cpu c) ((s.held c).card + s.opened c) (s.before c))
    (hfits : Fits K (s.held c) (s.opened c) set code) (hholds : set = true → K.ptable ∈ s.held c)
    (hscheduler : s.proc c = none → set = false)
    (hown : ∀ t, s.proc c = some t → Own set (s.state t)) : Ok K (s.setCurrent c code) c set := by
  constructor
  · simpa using hcpu
  · simpa using hfits
  · simpa using hholds
  · simpa using hscheduler
  · simpa using hown

omit [DecidableEq T] [DecidableEq L] [Fintype L] in
/-- `holding` within the nesting. -/
theorem holding_eq {depth : ℕ} {v : Option Bool} (hcpu : CpuOk (s.cpu c) depth v)
    (hpos : 0 < depth) : s.holding c lk = some (decide (s.lock lk = some c), s.cpu c) := by
  unfold State.holding
  rw [hcpu.pushcli_popcli hpos, Option.map_some]

omit [DecidableEq T] [DecidableEq L] [Fintype L] in
/-- `popcli` of a state. -/
theorem popcli_eq {depth : ℕ} (hcpu : CpuOk (s.cpu c) (depth + 1) (s.before c))
    (hlog : Restored s.restored) : ∃ y log,
      s.popcli c = some { s.setCpu c y with restored := log } ∧ CpuOk y depth (s.before c) ∧
        Restored log := by
  obtain ⟨y, hpop, hok, hflag⟩ := hcpu.popcli
  refine ⟨y, _, by unfold State.popcli; rw [hpop, Option.map_some], hok, ?_⟩
  split
  next hzero =>
    intro r hr v hv
    rcases List.mem_cons.mp hr with rfl | hr
    · exact hflag hzero v hv
    · exact hlog r hr v hv
  next => exact hlog

end Xv6.Interrupts
