import Xv6.Cpus

/-!
# The process table is consistent

In every state in which `ptable.lock` is free the running processes are those of the CPUs, what
may run has a kernel stack and a page directory, channels belong to sleepers, the pids in use
are positive and different, and every process but init has a parent that has not exited.
-/

namespace Xv6

namespace PTable

/-! ## What wakeups and `exit` do to each slot -/

/-- The second table differs from the first only in fields that do not matter here, and in
sleeping processes that have been woken. -/
structure Wakes (t t' : PTable) : Prop where
  /-- Pids stay. -/
  pid : ∀ j, (t'.proc j).pid = (t.proc j).pid
  /-- Channels stay. -/
  chan : ∀ j, (t'.proc j).chan = (t.proc j).chan
  /-- Kernel stacks stay. -/
  kstack : ∀ j, (t'.proc j).kstack = (t.proc j).kstack
  /-- Page directories stay. -/
  pgdir : ∀ j, (t'.proc j).pgdir = (t.proc j).pgdir
  /-- `initproc` stays. -/
  initproc : t'.initproc = t.initproc
  /-- `nextpid` stays. -/
  nextpid : t'.nextpid = t.nextpid
  /-- States stay or are wakeups. -/
  state : ∀ j, (t'.proc j).state = (t.proc j).state ∨
    (t.proc j).state = .sleeping ∧ (t'.proc j).state = .runnable

theorem Wakes.trans {t t' t'' : PTable} (hfirst : Wakes t t') (hsecond : Wakes t' t'') :
    Wakes t t'' where
  pid := fun j => (hsecond.pid j).trans (hfirst.pid j)
  chan := fun j => (hsecond.chan j).trans (hfirst.chan j)
  kstack := fun j => (hsecond.kstack j).trans (hfirst.kstack j)
  pgdir := fun j => (hsecond.pgdir j).trans (hfirst.pgdir j)
  initproc := hsecond.initproc.trans hfirst.initproc
  nextpid := hsecond.nextpid.trans hfirst.nextpid
  state := by
    intro j
    have h1 := hfirst.state j
    have h2 := hsecond.state j
    grind

/-- A change of one slot that wakes it or leaves its state alone. -/
theorem wakes_modify {t : PTable} {i : Slot} {f : Proc → Proc}
    (hpid : (f (t.proc i)).pid = (t.proc i).pid) (hchan : (f (t.proc i)).chan = (t.proc i).chan)
    (hkstack : (f (t.proc i)).kstack = (t.proc i).kstack)
    (hpgdir : (f (t.proc i)).pgdir = (t.proc i).pgdir)
    (hstate : (f (t.proc i)).state = (t.proc i).state ∨
      (t.proc i).state = .sleeping ∧ (f (t.proc i)).state = .runnable) :
    Wakes t (t.modify i f) := by
  refine ⟨fun j => ?_, fun j => ?_, fun j => ?_, fun j => ?_, rfl, rfl, fun j => ?_⟩ <;>
    · by_cases hj : j = i
      · subst hj
        simpa
      · simp [modify_proc_of_ne hj]

theorem wakes_wakeup1 (t : PTable) (chan : Option Chan) : Wakes t (t.wakeup1 chan) := by
  refine ⟨fun j => ?_, fun j => ?_, fun j => ?_, fun j => ?_, rfl, rfl, fun j => ?_⟩ <;>
    simp only [wakeup1, map_proc] <;> split_ifs with hj <;> simp_all

theorem wakes_kill (t : PTable) (pid : ℤ) : Wakes t (t.kill pid).2 := by
  unfold kill
  split
  · dsimp only
    refine wakes_modify (by rfl) (by rfl) (by rfl) (by rfl) ?_
    dsimp only
    split_ifs with hsleep
    · exact .inr ⟨hsleep, rfl⟩
    · exact .inl rfl
  · exact ⟨fun _ => rfl, fun _ => rfl, fun _ => rfl, fun _ => rfl, rfl, rfl, fun _ => .inl rfl⟩

@[simp] theorem modify_initproc (t : PTable) (i : Slot) (f : Proc → Proc) :
    (t.modify i f).initproc = t.initproc := rfl

/-- After `wakeup1` nobody sleeps on the channel. -/
theorem wakeup1_state {t : PTable} {chan : Option Chan} {j : Slot}
    (hj : ((t.wakeup1 chan).proc j).state = .sleeping) : (t.proc j).chan ≠ chan := by
  intro hchan
  simp only [wakeup1, map_proc] at hj
  split_ifs at hj with hsleep
  exact hsleep ⟨hj, hchan⟩

@[simp] theorem wakeup1_parent (t : PTable) (chan : Option Chan) (j : Slot) :
    ((t.wakeup1 chan).proc j).parent = (t.proc j).parent := by
  simp only [wakeup1, map_proc]
  split_ifs <;> rfl

/-- What the adoption loop of `exit` does once it has passed the slots of a list. -/
structure Adopts (cur : Slot) (l : List Slot) (t t' : PTable) : Prop where
  /-- Otherwise it only wakes. -/
  wakes : Wakes t t'
  /-- The children among the slots have passed to init. -/
  parent : ∀ j, (t'.proc j).parent =
    if j ∈ l ∧ (t.proc j).parent = some cur then t.initproc else (t.proc j).parent
  /-- If one of them was a zombie, init does not sleep in `wait`. -/
  woken : ∀ k ∈ l, (t.proc k).parent = some cur → (t.proc k).state = .zombie →
    ∀ j, (t'.proc j).state = .sleeping → (t.proc j).chan ≠ t.initproc.map .proc

/-- One round of the loop. -/
theorem adopts_exitAdopt (cur i : Slot) (t : PTable) : Adopts cur [i] t (exitAdopt cur t i) := by
  unfold exitAdopt
  by_cases hchild : (t.proc i).parent = some cur
  · have hmodify : Wakes t (t.modify i fun p => { p with parent := t.initproc }) :=
      wakes_modify rfl rfl rfl rfl (.inl rfl)
    have hparent : ∀ j, ((t.modify i fun p => { p with parent := t.initproc }).proc j).parent =
        if j ∈ [i] ∧ (t.proc j).parent = some cur then t.initproc else (t.proc j).parent := by
      intro j
      by_cases hj : j = i
      · subst hj
        simp [hchild]
      · simp [modify_proc_of_ne hj, hj]
    rw [if_pos hchild]
    dsimp only
    split_ifs with hzombie
    · refine ⟨hmodify.trans (wakes_wakeup1 _ _), fun j => ?_, ?_⟩
      · rw [wakeup1_parent]
        exact hparent j
      · intro k _ _ _ j hj
        have hne := wakeup1_state hj
        rwa [hmodify.chan j] at hne
    · refine ⟨hmodify, hparent, ?_⟩
      intro k hk _ hstate
      rw [List.mem_singleton] at hk
      subst hk
      simp [hstate] at hzombie
  · rw [if_neg hchild]
    refine ⟨⟨fun _ => rfl, fun _ => rfl, fun _ => rfl, fun _ => rfl, rfl, rfl,
      fun _ => .inl rfl⟩, ?_, ?_⟩
    · intro j
      rw [if_neg]
      rintro ⟨hj, hparent⟩
      rw [List.mem_singleton] at hj
      exact hchild (hj ▸ hparent)
    · intro k hk hparent
      rw [List.mem_singleton] at hk
      exact absurd (hk ▸ hparent) hchild

/-- Rounds one after the other. -/
theorem Adopts.append {cur : Slot} {l l' : List Slot} {t t' t'' : PTable}
    (hinit : t.initproc ≠ some cur) (hfirst : Adopts cur l t t') (hsecond : Adopts cur l' t' t'') :
    Adopts cur (l ++ l') t t'' := by
  refine ⟨hfirst.wakes.trans hsecond.wakes, fun j => ?_, ?_⟩
  · rw [hsecond.parent j, hfirst.parent j, hfirst.wakes.initproc]
    simp only [List.mem_append]
    split_ifs <;> simp_all
  · intro k hk hparent hzombie j hj
    have hsleep : (t'.proc j).state = .sleeping := by
      rcases hsecond.wakes.state j with hsame | ⟨-, hwoken⟩
      · rwa [hsame] at hj
      · rw [hwoken] at hj
        cases hj
    by_cases hkl : k ∈ l
    · exact hfirst.woken k hkl hparent hzombie j hsleep
    · have hk' : k ∈ l' := (List.mem_append.mp hk).resolve_left hkl
      have hparent' : (t'.proc k).parent = some cur := by
        rw [hfirst.parent k, if_neg (by simp [hkl])]
        exact hparent
      have hzombie' : (t'.proc k).state = .zombie := by
        rcases hfirst.wakes.state k with hsame | ⟨hsleeping, -⟩
        · rw [hsame, hzombie]
        · rw [hzombie] at hsleeping
          cases hsleeping
      have hne := hsecond.woken k hk' hparent' hzombie' j hj
      rwa [hfirst.wakes.chan j, hfirst.wakes.initproc] at hne

/-- The loop over a list of slots. -/
theorem adopts_foldl (cur : Slot) (l : List Slot) {t : PTable} (hinit : t.initproc ≠ some cur) :
    Adopts cur l t (l.foldl (exitAdopt cur) t) := by
  induction l generalizing t with
  | nil =>
    exact ⟨⟨fun _ => rfl, fun _ => rfl, fun _ => rfl, fun _ => rfl, rfl, rfl,
      fun _ => .inl rfl⟩, fun j => by simp, fun k hk => by simp at hk⟩
  | cons i l ih =>
    have hround := adopts_exitAdopt cur i t
    have hrest := ih (t := exitAdopt cur t i) (by rwa [hround.wakes.initproc])
    exact hround.append hinit hrest

/-- What `exit` does up to the change of its own state: it wakes its parent and passes its
children to init, which it wakes if one of them is a zombie. -/
structure Abandons (cur : Slot) (t t' : PTable) : Prop where
  /-- Otherwise it only wakes. -/
  wakes : Wakes t t'
  /-- The children have passed to init. -/
  parent : ∀ j, (t'.proc j).parent =
    if (t.proc j).parent = some cur then t.initproc else (t.proc j).parent
  /-- The parent does not sleep in `wait`. -/
  parentWoken : ∀ j, (t'.proc j).state = .sleeping →
    (t.proc j).chan ≠ (t.proc cur).parent.map .proc
  /-- If a child was a zombie, init does not sleep in `wait`. -/
  initWoken : ∀ k, (t.proc k).parent = some cur → (t.proc k).state = .zombie →
    ∀ j, (t'.proc j).state = .sleeping → (t.proc j).chan ≠ t.initproc.map .proc

theorem abandons_exitFamily {t : PTable} {cur : Slot} (hinit : t.initproc ≠ some cur) :
    Abandons cur t (t.exitFamily cur) := by
  unfold exitFamily
  let t₁ := t.modify cur fun p => { p with ofile := fun _ => 0, cwd := 0 }
  let t₂ := t₁.wakeup1 ((t₁.proc cur).parent.map .proc)
  have hall : ∀ j : Slot, j ∈ List.finRange nproc := List.mem_finRange
  change Abandons cur t ((List.finRange nproc).foldl (exitAdopt cur) t₂)
  generalize List.finRange nproc = slots at hall ⊢
  have hclose : Wakes t t₁ := wakes_modify rfl rfl rfl rfl (.inl rfl)
  have hparent₁ : ∀ j, (t₁.proc j).parent = (t.proc j).parent := by
    intro j
    simp only [t₁, modify_proc]
    split_ifs <;> rfl
  have hwake : Wakes t t₂ := hclose.trans (wakes_wakeup1 _ _)
  have hparent₂ : ∀ j, (t₂.proc j).parent = (t.proc j).parent := by
    intro j
    rw [wakeup1_parent, hparent₁ j]
  have hloop : Adopts cur slots t₂ (slots.foldl (exitAdopt cur) t₂) :=
    adopts_foldl cur _ (by rwa [hwake.initproc])
  refine ⟨hwake.trans hloop.wakes, fun j => ?_, fun j hj => ?_, fun k hparent hzombie j hj => ?_⟩
  · have hparent := hloop.parent j
    simpa only [hall j, true_and, hparent₂ j, hwake.initproc] using hparent
  · have hsleep : (t₂.proc j).state = .sleeping := by
      rcases hloop.wakes.state j with hsame | ⟨-, hwoken⟩
      · rwa [hsame] at hj
      · rw [hwoken] at hj
        cases hj
    have hne := wakeup1_state hsleep
    rwa [hclose.chan j, hparent₁ cur] at hne
  · have hzombie₂ : (t₂.proc k).state = .zombie := by
      rcases hwake.state k with hsame | ⟨hsleeping, -⟩
      · rw [hsame, hzombie]
      · rw [hzombie] at hsleeping
        cases hsleeping
    have hne := hloop.woken k (hall k) (by rw [hparent₂ k, hparent]) hzombie₂ j hj
    rwa [hwake.chan j, hwake.initproc] at hne

end PTable

namespace Cpus

open GuardedRun PTable
open ProcessRun (ForkPc)

variable {C : Type*} [DecidableEq C]

/-- States of a process that has been created and has not exited. -/
def Alive (state : ProcState) : Prop := state = .sleeping ∨ state = .runnable ∨ state = .running

/-- The position of a process that is, or has been woken from being, asleep. -/
def Pc.InSleep (pc : Pc) : Prop := pc = .sleep ∨ pc = .wait

/-! ## CPUs, positions and channels -/

/-- CPUs, states, positions and channels fit together. -/
structure OnCpus (s : State C) : Prop where
  /-- The process of a CPU is running. -/
  running : ∀ c i, s.cpu c = some i → (s.table.proc i).state = .running
  /-- A running process has a CPU. -/
  hasCpu : ∀ i, (s.table.proc i).state = .running → ∃ c, s.cpu c = some i
  /-- Two CPUs do not run the same process. -/
  distinct : ∀ c d i, s.cpu c = some i → s.cpu d = some i → c = d
  /-- A process between `sched` and its release of `ptable.lock` runs with the lock held. -/
  locked : ∀ c i, s.cpu c = some i → s.pc i ≠ .outside → s.lock = some c
  /-- Only processes in `sleep` have a channel. -/
  chan : ∀ i, (s.table.proc i).chan ≠ none → (s.pc i).InSleep
  /-- Sleepers are in `sleep`. -/
  inSleep : ∀ i, (s.table.proc i).state = .sleeping → (s.pc i).InSleep
  /-- Processes in `sleep` are alive. -/
  alive : ∀ i, (s.pc i).InSleep → Alive (s.table.proc i).state

/-- How far the forks are, and what the processes own. -/
structure Forks (s : State C) : Prop where
  /-- The child of a fork in progress is in state `EMBRYO`. -/
  child : ∀ cur np, (s.forkPc cur).child = some np → (s.table.proc np).state = .embryo
  /-- Two forks have different children. -/
  distinct : ∀ cur cur' np, (s.forkPc cur).child = some np → (s.forkPc cur').child = some np →
    cur = cur'
  /-- A process in `fork` is alive. -/
  forker : ∀ cur, s.forkPc cur ≠ .idle → Alive (s.table.proc cur).state
  /-- After `allocproc` the child has a kernel stack. -/
  ready : ∀ cur np, s.forkPc cur = .ready np → (s.table.proc np).kstack ≠ 0
  /-- After the copy it has a page directory and a parent. -/
  copied : ∀ cur np, s.forkPc cur = .copied np → (s.table.proc np).kstack ≠ 0 ∧
    (s.table.proc np).pgdir ≠ 0 ∧ (s.table.proc np).parent = some cur
  /-- What is alive has a kernel stack and a page directory. -/
  resources : ∀ i, Alive (s.table.proc i).state →
    (s.table.proc i).kstack ≠ 0 ∧ (s.table.proc i).pgdir ≠ 0

section

variable {s : State C} {c : C} {cur np : Slot}

omit [DecidableEq C] in
/-- Wakeups keep CPUs, positions and channels consistent. -/
theorem OnCpus.wakes (h : OnCpus s) {t : PTable} (hwakes : Wakes s.table t) :
    OnCpus { s with table := t } := by
  obtain ⟨hrunning, hcpu, hdistinct, hlocked, hchan, hsleep, halive⟩ := h
  have hstate := hwakes.state
  have hchan' := hwakes.chan
  refine ⟨fun c i hc => ?_, fun i hi => ?_, hdistinct, hlocked, fun i hi => ?_, fun i hi => ?_,
    fun i hi => ?_⟩ <;> dsimp only at *
  · grind
  · grind
  · grind
  · grind
  · grind [Alive]

/-- A process gives up its CPU. -/
theorem OnCpus.sched (h : OnCpus s) (hcur : s.cpu c = some cur)
    (hlock : ∀ d, s.lock = some d → d = c) {f : Proc → Proc} {pc : Pc} {log : List Event}
    (hstate : (f (s.table.proc cur)).state ≠ .running)
    (hchan : (f (s.table.proc cur)).chan ≠ none → pc.InSleep)
    (hsleep : (f (s.table.proc cur)).state = .sleeping → pc.InSleep)
    (halive : pc.InSleep → Alive (f (s.table.proc cur)).state) :
    OnCpus ({ s with table := s.table.modify cur f, log := log }.sched c cur pc) := by
  obtain ⟨hrunning, hcpu, hdistinct, hlocked, hchan', hsleep', halive'⟩ := h
  simp only [State.sched, State.setPc, State.setCpu]
  refine ⟨fun d i hd => ?_, fun i hi => ?_, fun d d' i hd hd' => ?_, fun d i hd hi => ?_,
    fun i hi => ?_, fun i hi => ?_, fun i hi => ?_⟩ <;> simp only [modify_proc] at *
  · grind
  · grind
  · grind
  · grind
  · grind
  · grind
  · grind

omit [DecidableEq C] in
/-- A running process moves on with its CPU. -/
theorem OnCpus.goto (h : OnCpus s) (hcur : s.cpu c = some cur)
    (hlock : ∀ d, s.lock = some d → d = c) {f : Proc → Proc} {k : Pc} {l : Option C}
    {e : List Event} (hstate : (f (s.table.proc cur)).state = (s.table.proc cur).state)
    (hchan : (f (s.table.proc cur)).chan = none) (hpc : ¬ k.InSleep)
    (hheld : k ≠ .outside → l = some c) :
    OnCpus ({ s with table := s.table.modify cur f, lock := l, log := e }.setPc cur k) := by
  obtain ⟨hrunning, hcpu, hdistinct, hlocked, hchan', hsleep, halive⟩ := h
  have hcurrent := hrunning c cur hcur
  simp only [State.setPc]
  refine ⟨fun d i hd => ?_, fun i hi => ?_, hdistinct, fun d i hd hi => ?_, fun i hi => ?_,
    fun i hi => ?_, fun i hi => ?_⟩ <;> simp only [modify_proc] at *
  · grind
  · grind
  · grind
  · grind
  · grind
  · grind

omit [DecidableEq C] in
/-- A slot that is not alive changes, without falling asleep. -/
theorem OnCpus.idle (h : OnCpus s) {q : Slot} (hidle : ¬ Alive (s.table.proc q).state)
    {f : Proc → Proc}
    (hchan : (f (s.table.proc q)).chan = (s.table.proc q).chan)
    (hrun : (f (s.table.proc q)).state ≠ .running)
    (hsleep : (f (s.table.proc q)).state ≠ .sleeping) :
    OnCpus { s with table := s.table.modify q f } := by
  obtain ⟨hrunning, hcpu, hdistinct, hlocked, hchan', hsleep', halive⟩ := h
  have hpc : ¬ (s.pc q).InSleep := fun hpc => hidle (halive q hpc)
  have hnot : (s.table.proc q).state ≠ .running := fun hstate => hidle (.inr (.inr hstate))
  refine ⟨fun d i hd => ?_, fun i hi => ?_, hdistinct, hlocked, fun i hi => ?_,
    fun i hi => ?_, fun i hi => ?_⟩ <;> simp only [modify_proc] at *
  · grind
  · grind
  · grind
  · grind
  · grind

omit [DecidableEq C] in
/-- What the record says depends on the slots, the CPUs, the lock and the positions only. -/
theorem OnCpus.frame (h : OnCpus s) {s' : State C} (hproc : s'.table.proc = s.table.proc)
    (hcpu : s'.cpu = s.cpu) (hlock : s'.lock = s.lock) (hpc : s'.pc = s.pc) : OnCpus s' := by
  obtain ⟨hrunning, hhas, hdistinct, hlocked, hchan, hsleep, halive⟩ := h
  refine ⟨?_, ?_, ?_, ?_, ?_, ?_, ?_⟩ <;> simpa only [hproc, hcpu, hlock, hpc]

omit [DecidableEq C] in
/-- A slot that is not alive gets the position at which it will start. -/
theorem OnCpus.starts (h : OnCpus s) (hidle : ¬ Alive (s.table.proc np).state) :
    OnCpus (s.setPc np .forkret) := by
  obtain ⟨hrunning, hcpu, hdistinct, hlocked, hchan, hsleep, halive⟩ := h
  have hpc : ¬ (s.pc np).InSleep := fun hpc => hidle (halive np hpc)
  have hcpuless : ∀ d, s.cpu d ≠ some np := fun d hd => hidle (.inr (.inr (hrunning d np hd)))
  simp only [State.setPc]
  refine ⟨hrunning, hcpu, hdistinct, fun d i hd hi => ?_, fun i hi => ?_, fun i hi => ?_,
    fun i hi => ?_⟩ <;> dsimp only at *
  · grind
  · grind
  · grind
  · grind [Pc.InSleep]

theorem modify_id (t : PTable) (i : Slot) : t.modify i id = t := by
  unfold PTable.modify
  simp

omit [DecidableEq C] in
/-- A process outside `sleep` has no channel. -/
theorem OnCpus.chan_eq_none (h : OnCpus s) {i : Slot} (hpc : ¬ (s.pc i).InSleep) :
    (s.table.proc i).chan = none := by
  by_contra hchan
  exact hpc (h.chan i hchan)

/-- Every step keeps CPUs, positions and channels consistent. -/
theorem OnCpus.effect {a : Action C} (h : OnCpus s) (hforks : Forks s)
    (henabled : Enabled s a) : OnCpus (effect s a) := by
  cases a with
  | allocproc c cur np =>
    have hunused : (s.table.proc np).state = .unused := by simpa using findSlot_some henabled.2
    have hidle : ¬ Alive (s.table.proc np).state := by simp [Alive, hunused]
    have htable := h.idle hidle (f := fun p =>
      { p with state := .embryo, pid := s.table.nextpid, syscallCount := fun _ => 0 })
      rfl (by simp) (by simp)
    exact htable.frame rfl rfl rfl rfl
  | kalloc c cur np kstack =>
    have hembryo := hforks.child cur np (by simp [henabled.2, ForkPc.child])
    have hidle : ¬ Alive (s.table.proc np).state := by simp [Alive, hembryo]
    by_cases hfail : kstack = 0
    · rw [Cpus.effect, if_pos hfail]
      have htable := h.idle hidle (f := fun p => { p with kstack := 0, state := .unused })
        rfl (by simp) (by simp)
      exact htable.frame rfl rfl rfl rfl
    · rw [Cpus.effect, if_neg hfail]
      have htable := (h.starts hidle).idle hidle (f := fun p =>
        { p with
          kstack := kstack
          tf := kstack + kstackSize - 76
          context := kstack + kstackSize - 76 - 4 - 20
          ticket := 10
          responseTime := s.table.ticks
          turnAroundTime := s.table.ticks
          serv := 0 }) rfl (by simp [State.setPc, hembryo]) (by simp [State.setPc, hembryo])
      exact htable.frame rfl rfl rfl rfl
  | copyuvm c cur np pgdir =>
    have hembryo := hforks.child cur np (by simp [henabled.2, ForkPc.child])
    have hidle : ¬ Alive (s.table.proc np).state := by simp [Alive, hembryo]
    by_cases hfail : pgdir = 0
    · rw [Cpus.effect, if_pos hfail]
      have htable := h.idle hidle (f := fun p =>
        { p with pgdir := 0, kstack := 0, state := .unused }) rfl (by simp) (by simp)
      exact htable.frame rfl rfl rfl rfl
    · rw [Cpus.effect, if_neg hfail]
      have htable := h.idle hidle (f := fun p => (s.table.forkCopy cur np pgdir).proc np)
        (by simp [forkCopy]) (by simp [forkCopy, hembryo]) (by simp [forkCopy, hembryo])
      refine htable.frame ?_ rfl rfl rfl
      funext j
      simp only [State.setForkPc, forkCopy, modify_proc]
      split_ifs with hj <;> simp [hj]
  | forkRunnable c cur np =>
    have hembryo := hforks.child cur np (by simp [henabled.2.1, ForkPc.child])
    have hidle : ¬ Alive (s.table.proc np).state := by simp [Alive, hembryo]
    have htable := h.idle hidle (f := fun p => { p with state := .runnable })
      rfl (by simp) (by simp)
    exact htable.frame rfl rfl rfl rfl
  | exit c cur =>
    obtain ⟨⟨⟨hcpu, hpc⟩, -, hfree⟩, hinit⟩ := henabled
    have hfamily := (abandons_exitFamily hinit).wakes
    simp only [Cpus.effect, PTable.exit]
    generalize s.table.exitFamily cur = t at hfamily ⊢
    have hwakes := h.wakes hfamily
    have hchan : (t.proc cur).chan = none := hwakes.chan_eq_none (by simp [hpc, Pc.InSleep])
    exact hwakes.sched hcpu (by simp [hfree]) (by simp) (by simp [hchan]) (by simp)
      (by simp [Pc.InSleep])
  | wait c cur =>
    obtain ⟨⟨hcpu, hpc⟩, -, hfree⟩ := henabled
    have hchan := h.chan_eq_none (i := cur) (by simp [hpc, Pc.InSleep])
    have hgoto := h.goto hcpu (by simp [hfree]) (f := id) (k := .scan) (l := some c)
      (e := s.log) rfl hchan (by simp [Pc.InSleep]) (fun _ => rfl)
    rwa [modify_id] at hgoto
  | scan c cur =>
    obtain ⟨hcpu, hpc⟩ := henabled
    have hlock : s.lock = some c := h.locked c cur hcpu (by simp [hpc])
    have hchan := h.chan_eq_none (i := cur) (by simp [hpc, Pc.InSleep])
    simp only [Cpus.effect]
    rcases wait_spec s.table cur with ⟨pid, i, -, hzombie, hwait⟩ | hwait | hwait
    · simp only [hwait]
      have hidle : ¬ Alive (s.table.proc i).state := by simp [Alive, hzombie]
      have hreap := h.idle hidle (f := fun p =>
        { p with kstack := 0, pid := 0, parent := none, name := "", killed := 0, state := .unused })
        rfl (by simp) (by simp)
      have hgoto := hreap.goto hcpu (by simp [hlock]) (f := id) (k := .outside) (l := none)
        (e := ((zombieChild s.table cur).map fun i => Event.reaped cur i pid).toList ++ s.log)
        rfl (hreap.chan_eq_none (by simp [hpc, Pc.InSleep])) (by simp [Pc.InSleep]) (by simp)
      rwa [modify_id] at hgoto
    · simp only [hwait]
      have hgoto := h.goto hcpu (by simp [hlock]) (f := id) (k := .outside) (l := none)
        (e := s.log) rfl hchan (by simp [Pc.InSleep]) (by simp)
      rwa [modify_id] at hgoto
    · simp only [hwait]
      exact h.sched hcpu (by simp [hlock]) (by simp) (by simp [Pc.InSleep]) (by simp [Pc.InSleep])
        (by simp [Alive])
  | kill c cur pid => exact h.wakes (wakes_kill s.table pid)
  | yield c cur =>
    obtain ⟨⟨hcpu, hpc⟩, hfree⟩ := henabled
    have hchan := h.chan_eq_none (i := cur) (by simp [hpc, Pc.InSleep])
    exact h.sched hcpu (by simp [hfree]) (by simp) (by simp [hchan]) (by simp)
      (by simp [Pc.InSleep])
  | sleep c cur addr =>
    obtain ⟨⟨hcpu, -⟩, -, hfree⟩ := henabled
    exact h.sched hcpu (by simp [hfree]) (by simp) (by simp [Pc.InSleep]) (by simp [Pc.InSleep])
      (by simp [Alive])
  | resume c cur =>
    obtain ⟨hcpu, hpc⟩ := henabled
    have hout : s.pc cur ≠ .outside := by rcases hpc with h | h | h | h <;> simp [h]
    have hlock : s.lock = some c := h.locked c cur hcpu hout
    simp only [Cpus.effect]
    split
    · exact h.goto hcpu (by simp [hlock]) rfl rfl (by simp [Pc.InSleep]) (by simp)
    · exact h.goto hcpu (by simp [hlock]) rfl rfl (by simp [Pc.InSleep]) (fun _ => hlock)
    · rename_i hsleep hwait
      have hchan := h.chan_eq_none (i := cur) fun hin => hin.elim hsleep hwait
      have hgoto := h.goto hcpu (by simp [hlock]) (f := id) (k := .outside) (l := none)
        (e := s.log) rfl hchan (by simp [Pc.InSleep]) (by simp)
      rwa [modify_id] at hgoto
  | wakeup addr => exact h.wakes (wakes_wakeup1 _ _)
  | enter c =>
    obtain ⟨hcpu, hfree⟩ := henabled
    have hlocked := h.locked
    refine ⟨h.running, h.hasCpu, h.distinct, ?_, h.chan, h.inSleep, h.alive⟩
    intro d i hd hi
    have hheld := h.locked d i hd hi
    simp [hfree] at hheld
  | dispatch c i =>
    obtain ⟨hcpu, hlock, hrunnable⟩ := henabled
    obtain ⟨hrunning, hhas, hdistinct, hlocked, hchan, hsleep, halive⟩ := h
    have hidle : ∀ d, s.cpu d ≠ some i := by
      intro d hd
      simp [hrunning d i hd] at hrunnable
    simp only [Cpus.effect, State.setCpu, PTable.dispatch]
    refine ⟨fun d j hd => ?_, fun j hj => ?_, fun d d' j hd hd' => ?_, fun d j hd hj => ?_,
      fun j hj => ?_, fun j hj => ?_, fun j hj => ?_⟩
    · grind [modify_proc]
    · grind [modify_proc]
    · grind
    · grind
    · grind [modify_proc]
    · grind [modify_proc]
    · grind [modify_proc, Alive]
  | leave c =>
    obtain ⟨hcpu, hlock⟩ := henabled
    refine ⟨h.running, h.hasCpu, h.distinct, ?_, h.chan, h.inSleep, h.alive⟩
    intro d i hd hi
    have hheld := h.locked d i hd hi
    rw [hlock] at hheld
    cases hheld
    cases hcpu.symm.trans hd
  | tick => exact h.frame rfl rfl rfl rfl

/-! ## Forks and families -/

omit [DecidableEq C] in
/-- What leaves forks and `EMBRYO` slots alone and brings nothing to life keeps the forks. -/
theorem Forks.frame (h : Forks s) {s' : State C} (hfork : s'.forkPc = s.forkPc)
    (hembryo : ∀ j, (s.table.proc j).state = .embryo → (s'.table.proc j).state = .embryo ∧
      (s'.table.proc j).kstack = (s.table.proc j).kstack ∧
      (s'.table.proc j).pgdir = (s.table.proc j).pgdir)
    (hparent : ∀ cur np, s.forkPc cur = .copied np → (s'.table.proc np).parent = some cur)
    (halive : ∀ cur, s.forkPc cur ≠ .idle → Alive (s'.table.proc cur).state)
    (hresources : ∀ j, Alive (s'.table.proc j).state → Alive (s.table.proc j).state ∧
      (s'.table.proc j).kstack = (s.table.proc j).kstack ∧
      (s'.table.proc j).pgdir = (s.table.proc j).pgdir) : Forks s' := by
  refine ⟨fun cur np hnp => ?_, fun cur cur' np hnp hnp' => ?_, fun cur hcur => ?_,
    fun cur np hnp => ?_, fun cur np hnp => ?_, fun i hi => ?_⟩ <;> rw [hfork] at *
  · exact (hembryo np (h.child cur np hnp)).1
  · exact h.distinct cur cur' np hnp hnp'
  · exact halive cur hcur
  · obtain ⟨-, hkstack, -⟩ := hembryo np (h.child cur np (by simp [hnp, ForkPc.child]))
    rw [hkstack]
    exact h.ready cur np hnp
  · obtain ⟨-, hkstack, hpgdir⟩ := hembryo np (h.child cur np (by simp [hnp, ForkPc.child]))
    obtain ⟨h1, h2, -⟩ := h.copied cur np hnp
    exact ⟨hkstack ▸ h1, hpgdir ▸ h2, hparent cur np hnp⟩
  · obtain ⟨hold, hkstack, hpgdir⟩ := hresources i hi
    rw [hkstack, hpgdir]
    exact h.resources i hold

omit [DecidableEq C] in
/-- Wakeups keep the forks. -/
theorem Forks.wakes (h : Forks s) {t : PTable} (hwakes : Wakes s.table t)
    (hparent : ∀ cur np, s.forkPc cur = .copied np → (t.proc np).parent = some cur) :
    Forks { s with table := t } := by
  have hstate : ∀ j, Alive (t.proc j).state ↔ Alive (s.table.proc j).state := by
    intro j
    rcases hwakes.state j with hsame | ⟨hsleeping, hwoken⟩
    · rw [hsame]
    · simp [Alive, hsleeping, hwoken]
  refine h.frame rfl (fun j hj => ?_) hparent (fun cur hcur => ?_) fun j hj => ?_
  · refine ⟨?_, hwakes.kstack j, hwakes.pgdir j⟩
    rcases hwakes.state j with hsame | ⟨hsleeping, -⟩
    · exact hsame.trans hj
    · simp [hj] at hsleeping
  · exact (hstate cur).mpr (h.forker cur hcur)
  · exact ⟨(hstate j).mp hj, hwakes.kstack j, hwakes.pgdir j⟩

omit [DecidableEq C] in
/-- A process that stays alive keeps the forks. -/
theorem Forks.stays (h : Forks s) (hold : Alive (s.table.proc cur).state) {f : Proc → Proc}
    (hnew : Alive (f (s.table.proc cur)).state)
    (hkstack : (f (s.table.proc cur)).kstack = (s.table.proc cur).kstack)
    (hpgdir : (f (s.table.proc cur)).pgdir = (s.table.proc cur).pgdir)
    (hparent : (f (s.table.proc cur)).parent = (s.table.proc cur).parent) :
    Forks { s with table := s.table.modify cur f } := by
  refine h.frame rfl (fun j hj => ?_) (fun cur' np hnp => ?_) (fun cur' hcur' => ?_) fun j hj => ?_
  · have hne : j ≠ cur := by
      rintro rfl
      simp [Alive, hj] at hold
    simp [modify_proc_of_ne hne, hj]
  · have hembryo := h.child cur' np (by simp [hnp, ForkPc.child])
    have hne : np ≠ cur := by
      rintro rfl
      simp [Alive, hembryo] at hold
    simp only [modify_proc_of_ne hne]
    exact (h.copied cur' np hnp).2.2
  · by_cases heq : cur' = cur
    · simpa [heq] using hnew
    · simpa only [modify_proc_of_ne heq] using h.forker cur' hcur'
  · by_cases heq : j = cur
    · simp only [heq, modify_proc_self]
      exact ⟨hold, hkstack, hpgdir⟩
    · simpa [modify_proc_of_ne heq] using hj

omit [DecidableEq C] in
/-- What the record says depends on the slots and the positions in `fork` only. -/
theorem Forks.congr (h : Forks s) {s' : State C} (hproc : s'.table.proc = s.table.proc)
    (hfork : s'.forkPc = s.forkPc) : Forks s' := by
  obtain ⟨hchild, hdistinct, hforker, hready, hcopied, hresources⟩ := h
  refine ⟨?_, ?_, ?_, ?_, ?_, ?_⟩ <;> simpa only [hproc, hfork]

theorem kill_parent (t : PTable) (pid : ℤ) (j : Slot) :
    ((t.kill pid).2.proc j).parent = (t.proc j).parent := by
  unfold kill
  split
  · simp only [modify_proc]
    split_ifs <;> rfl
  · rfl

/-- Every step keeps the forks. -/
theorem Forks.effect {a : Action C} (h : Forks s) (hcpus : OnCpus s) (henabled : Enabled s a) :
    Forks (effect s a) := by
  have hrunning : ∀ {c cur}, s.cpu c = some cur → Alive (s.table.proc cur).state :=
    fun hcpu => .inr (.inr (hcpus.running _ _ hcpu))
  cases a with
  | allocproc c cur np =>
    obtain ⟨⟨⟨hcpu, -⟩, hidle, -⟩, hfind⟩ := henabled
    have hunused : (s.table.proc np).state = .unused := by simpa using findSlot_some hfind
    have halive := hrunning hcpu
    obtain ⟨hchild, hdistinct, hforker, hready, hcopied, hresources⟩ := h
    simp only [Cpus.effect, State.setForkPc, allocprocEmbryo]
    refine ⟨fun p q hq => ?_, fun p p' q hq hq' => ?_, fun p hp => ?_, fun p q hq => ?_,
      fun p q hq => ?_, fun i hi => ?_⟩ <;> simp only [modify_proc] at *
    · grind [ForkPc.child]
    · grind [ForkPc.child]
    · grind [Alive]
    · grind [ForkPc.child]
    · grind [ForkPc.child]
    · grind [Alive]
  | kalloc c cur np kstack =>
    obtain ⟨⟨hcpu, -⟩, hfork⟩ := henabled
    have halive := hrunning hcpu
    have hembryo := h.child cur np (by simp [hfork, ForkPc.child])
    have hother : ∀ p, p ≠ cur → (s.forkPc p).child ≠ some np := fun p hp hq =>
      hp (h.distinct p cur np hq (by simp [hfork, ForkPc.child]))
    obtain ⟨hchild, hdistinct, hforker, hready, hcopied, hresources⟩ := h
    simp only [Cpus.effect]
    split_ifs with hfail <;> simp only [State.setForkPc, State.setPc, allocprocFail, allocprocInit]
    · refine ⟨fun p q hq => ?_, fun p p' q hq hq' => ?_, fun p hp => ?_, fun p q hq => ?_,
        fun p q hq => ?_, fun i hi => ?_⟩ <;> simp only [modify_proc] at *
      · grind [ForkPc.child]
      · grind [ForkPc.child]
      · grind [Alive]
      · grind [ForkPc.child]
      · grind [ForkPc.child]
      · grind [Alive]
    · refine ⟨fun p q hq => ?_, fun p p' q hq hq' => ?_, fun p hp => ?_, fun p q hq => ?_,
        fun p q hq => ?_, fun i hi => ?_⟩ <;> simp only [modify_proc] at *
      · grind [ForkPc.child]
      · grind [ForkPc.child]
      · grind [Alive]
      · grind [ForkPc.child]
      · grind [ForkPc.child]
      · grind [Alive]
  | copyuvm c cur np pgdir =>
    obtain ⟨⟨hcpu, -⟩, hfork⟩ := henabled
    have halive := hrunning hcpu
    have hembryo := h.child cur np (by simp [hfork, ForkPc.child])
    have hother : ∀ p, p ≠ cur → (s.forkPc p).child ≠ some np := fun p hp hq =>
      hp (h.distinct p cur np hq (by simp [hfork, ForkPc.child]))
    obtain ⟨hchild, hdistinct, hforker, hready, hcopied, hresources⟩ := h
    simp only [Cpus.effect]
    split_ifs with hfail <;> simp only [State.setForkPc, forkFail, forkCopy]
    · refine ⟨fun p q hq => ?_, fun p p' q hq hq' => ?_, fun p hp => ?_, fun p q hq => ?_,
        fun p q hq => ?_, fun i hi => ?_⟩ <;> simp only [modify_proc] at *
      · grind [ForkPc.child]
      · grind [ForkPc.child]
      · grind [Alive]
      · grind [ForkPc.child]
      · grind [ForkPc.child]
      · grind [Alive]
    · refine ⟨fun p q hq => ?_, fun p p' q hq hq' => ?_, fun p hp => ?_, fun p q hq => ?_,
        fun p q hq => ?_, fun i hi => ?_⟩ <;> simp only [modify_proc] at *
      · grind [ForkPc.child]
      · grind [ForkPc.child]
      · grind [Alive]
      · grind [ForkPc.child]
      · grind [ForkPc.child]
      · grind [Alive]
  | forkRunnable c cur np =>
    obtain ⟨⟨hcpu, -⟩, hfork, -⟩ := henabled
    have halive := hrunning hcpu
    have hembryo := h.child cur np (by simp [hfork, ForkPc.child])
    have hother : ∀ p, p ≠ cur → (s.forkPc p).child ≠ some np := fun p hp hq =>
      hp (h.distinct p cur np hq (by simp [hfork, ForkPc.child]))
    obtain ⟨hchild, hdistinct, hforker, hready, hcopied, hresources⟩ := h
    simp only [Cpus.effect, State.setForkPc, PTable.forkRunnable]
    refine ⟨fun p q hq => ?_, fun p p' q hq hq' => ?_, fun p hp => ?_, fun p q hq => ?_,
      fun p q hq => ?_, fun i hi => ?_⟩ <;> simp only [modify_proc] at *
    · grind [ForkPc.child]
    · grind [ForkPc.child]
    · grind [Alive]
    · grind [ForkPc.child]
    · grind [ForkPc.child]
    · grind [Alive]
  | exit c cur =>
    obtain ⟨⟨⟨hcpu, -⟩, hidle, -⟩, hinit⟩ := henabled
    obtain ⟨hwakes, hparent, -, -⟩ := abandons_exitFamily hinit
    simp only [Cpus.effect, PTable.exit]
    generalize s.table.exitFamily cur = t at hwakes hparent ⊢
    have hcopied : ∀ p np, s.forkPc p = .copied np → (t.proc np).parent = some p := by
      intro p np hnp
      have hne : p ≠ cur := by
        rintro rfl
        simp [hidle] at hnp
      have hold := (h.copied p np hnp).2.2
      rw [hparent np, hold, if_neg (by simpa using hne)]
    have hwoken : Forks { s with table := t } := h.wakes hwakes hcopied
    have halive : (t.proc cur).state = .running := (hcpus.wakes hwakes).running c cur hcpu
    refine hwoken.frame rfl (fun j hj => ?_) (fun p np hnp => ?_) (fun p hp => ?_)
      (fun j hj => ?_) <;> dsimp only at *
    · have hne : j ≠ cur := by
        rintro rfl
        simp [halive] at hj
      simp [State.sched, State.setPc, State.setCpu, modify_proc_of_ne hne, hj]
    · have hembryo : (t.proc np).state = .embryo :=
        hwoken.child p np (by simp [hnp, ForkPc.child])
      have hne : np ≠ cur := by
        rintro rfl
        simp [halive] at hembryo
      simp only [State.sched, State.setPc, State.setCpu, modify_proc_of_ne hne]
      exact hcopied p np hnp
    · have hne : p ≠ cur := by
        rintro rfl
        exact hp hidle
      simp only [State.sched, State.setPc, State.setCpu, modify_proc_of_ne hne]
      exact hwoken.forker p hp
    · have hne : j ≠ cur := by
        rintro rfl
        simp [State.sched, State.setPc, State.setCpu, Alive] at hj
      simpa [State.sched, State.setPc, State.setCpu, modify_proc_of_ne hne] using hj
  | wait c cur => exact h.congr rfl rfl
  | scan c cur =>
    obtain ⟨hcpu, -⟩ := henabled
    have halive := hrunning hcpu
    simp only [Cpus.effect]
    rcases wait_spec s.table cur with ⟨pid, i, -, hzombie, hwait⟩ | hwait | hwait
    · simp only [hwait]
      obtain ⟨hchild, hdistinct, hforker, hready, hcopied, hresources⟩ := h
      simp only [State.setPc]
      refine ⟨fun p q hq => ?_, fun p p' q hq hq' => ?_, fun p hp => ?_, fun p q hq => ?_,
        fun p q hq => ?_, fun i hi => ?_⟩ <;> simp only [modify_proc] at *
      · grind
      · grind
      · grind [Alive]
      · grind [ForkPc.child]
      · grind [ForkPc.child]
      · grind [Alive]
    · simp only [hwait]
      exact h.congr rfl rfl
    · simp only [hwait]
      have hstays := h.stays halive (f := fun p =>
        { p with chan := some (.proc cur), state := .sleeping }) (.inl rfl) rfl rfl rfl
      exact hstays.congr rfl rfl
  | kill c cur pid =>
    refine h.wakes (wakes_kill s.table pid) fun p np hnp => ?_
    rw [kill_parent]
    exact (h.copied p np hnp).2.2
  | yield c cur =>
    have hstays := h.stays (hrunning henabled.1.1) (f := fun p => { p with state := .runnable })
      (.inr (.inl rfl)) rfl rfl rfl
    exact hstays.congr rfl rfl
  | sleep c cur addr =>
    have hstays := h.stays (hrunning henabled.1.1) (f := fun p =>
      { p with chan := some (.addr addr), state := .sleeping }) (.inl rfl) rfl rfl rfl
    exact hstays.congr rfl rfl
  | resume c cur =>
    have halive := hrunning henabled.1
    have hstays := h.stays halive (f := fun p => { p with chan := none }) halive rfl rfl rfl
    simp only [Cpus.effect]
    split
    · exact hstays.congr rfl rfl
    · exact hstays.congr rfl rfl
    · exact h.congr rfl rfl
  | wakeup addr =>
    refine h.wakes (wakes_wakeup1 _ _) fun p np hnp => ?_
    rw [wakeup1_parent]
    exact (h.copied p np hnp).2.2
  | enter c => exact h.congr rfl rfl
  | dispatch c i =>
    have hstays := h.stays (.inr (.inl henabled.2.2)) (f := fun p =>
      { p with
        state := .running
        responseTime :=
          if p.serv = 0 then wrapUint ((s.table.ticks : ℤ) - p.responseTime) else p.responseTime
        serv := if p.serv = 0 then 1 else p.serv }) (.inr (.inr rfl)) rfl rfl rfl
    exact hstays.congr rfl rfl
  | leave c => exact h.congr rfl rfl
  | tick => exact h.congr rfl rfl

/-- Parents are alive, and all but init have one. -/
structure Families (s : State C) : Prop where
  /-- There is a process init, and it is alive. -/
  init : ∃ r, s.table.initproc = some r ∧ Alive (s.table.proc r).state
  /-- Parents are alive. -/
  parent : ∀ i p, (s.table.proc i).parent = some p → Alive (s.table.proc p).state
  /-- A process that was created and not reaped has a parent, unless it is init. -/
  hasParent : ∀ i, Alive (s.table.proc i).state ∨ (s.table.proc i).state = .zombie →
    s.table.initproc ≠ some i → (s.table.proc i).parent ≠ none

omit [DecidableEq C] in
/-- What keeps the living alive, hands children only to the living and takes no parent away. -/
theorem Families.frame (h : Families s) {s' : State C}
    (hinit : s'.table.initproc = s.table.initproc)
    (halive : ∀ p, Alive (s.table.proc p).state → Alive (s'.table.proc p).state)
    (hparent : ∀ i p, (s'.table.proc i).parent = some p →
      (s.table.proc i).parent = some p ∨ Alive (s.table.proc p).state)
    (hhas : ∀ i, Alive (s'.table.proc i).state ∨ (s'.table.proc i).state = .zombie →
      (s'.table.proc i).parent = none → (Alive (s.table.proc i).state ∨
        (s.table.proc i).state = .zombie) ∧ (s.table.proc i).parent = none) : Families s' := by
  obtain ⟨r, hr, hliving⟩ := h.init
  refine ⟨⟨r, hinit.trans hr, halive r hliving⟩, fun i p hp => ?_, fun i hi hne hnone => ?_⟩
  · rcases hparent i p hp with hold | hold
    · exact halive p (h.parent i p hold)
    · exact halive p hold
  · obtain ⟨hstate, hold⟩ := hhas i hi hnone
    rw [hinit] at hne
    exact h.hasParent i hstate hne hold

omit [DecidableEq C] in
/-- Wakeups keep the families. -/
theorem Families.wakes (h : Families s) {t : PTable} (hwakes : Wakes s.table t)
    (hparent : ∀ j, (t.proc j).parent = (s.table.proc j).parent) :
    Families { s with table := t } := by
  have hstate := hwakes.state
  refine h.frame hwakes.initproc (fun p hp => ?_) (fun i p hp => ?_) fun i hi hnone => ?_ <;>
    dsimp only at *
  · grind [Alive]
  · exact .inl (hparent i ▸ hp)
  · grind [Alive]

omit [DecidableEq C] in
/-- The families depend on the slots and on `initproc` only. -/
theorem Families.congr (h : Families s) {s' : State C} (hproc : s'.table.proc = s.table.proc)
    (hinit : s'.table.initproc = s.table.initproc) : Families s' := by
  obtain ⟨hi, hparent, hhas⟩ := h
  refine ⟨?_, ?_, ?_⟩ <;> simpa only [hproc, hinit]

omit [DecidableEq C] in
/-- A change of one slot that keeps its parent, keeps it alive if it was, and gives life only
to a slot with a parent. -/
theorem Families.modify (h : Families s) {q : Slot} {f : Proc → Proc}
    (halive : Alive (s.table.proc q).state → Alive (f (s.table.proc q)).state)
    (hparent : (f (s.table.proc q)).parent = (s.table.proc q).parent)
    (hhas : Alive (f (s.table.proc q)).state ∨ (f (s.table.proc q)).state = .zombie →
      Alive (s.table.proc q).state ∨ (s.table.proc q).parent ≠ none) :
    Families { s with table := s.table.modify q f } := by
  refine h.frame rfl (fun p hp => ?_) (fun i p hp => ?_) fun i hi hnone => ?_ <;>
    dsimp only at * <;> simp only [modify_proc] at *
  · grind
  · grind
  · grind

/-- Every step keeps the families. -/
theorem Families.effect {a : Action C} (h : Families s) (hcpus : OnCpus s) (hforks : Forks s)
    (henabled : Enabled s a) : Families (effect s a) := by
  have hrunning : ∀ {c cur}, s.cpu c = some cur → Alive (s.table.proc cur).state :=
    fun hcpu => .inr (.inr (hcpus.running _ _ hcpu))
  cases a with
  | allocproc c cur np =>
    have hunused : (s.table.proc np).state = .unused := by simpa using findSlot_some henabled.2
    have htable := h.modify (q := np) (f := fun p =>
      { p with state := .embryo, pid := s.table.nextpid, syscallCount := fun _ => 0 })
      (by simp [Alive, hunused]) rfl (by simp [Alive])
    exact htable.congr rfl rfl
  | kalloc c cur np kstack =>
    have hembryo := hforks.child cur np (by simp [henabled.2, ForkPc.child])
    simp only [Cpus.effect]
    split_ifs
    · have htable := h.modify (q := np) (f := fun p => { p with kstack := 0, state := .unused })
        (by simp [Alive, hembryo]) rfl (by simp [Alive])
      exact htable.congr rfl rfl
    · have htable := h.modify (q := np) (f := fun p =>
        { p with
          kstack := kstack
          tf := kstack + kstackSize - 76
          context := kstack + kstackSize - 76 - 4 - 20
          ticket := 10
          responseTime := s.table.ticks
          turnAroundTime := s.table.ticks
          serv := 0 }) (by simp [Alive, hembryo]) rfl (by simp [Alive, hembryo])
      exact htable.congr rfl rfl
  | copyuvm c cur np pgdir =>
    have hembryo := hforks.child cur np (by simp [henabled.2, ForkPc.child])
    have halive := hrunning henabled.1.1
    simp only [Cpus.effect]
    split_ifs
    · have htable := h.modify (q := np) (f := fun p =>
        { p with pgdir := 0, kstack := 0, state := .unused })
        (by simp [Alive, hembryo]) rfl (by simp [Alive])
      exact htable.congr rfl rfl
    · refine h.frame rfl (fun p hp => ?_) (fun i p hp => ?_) fun i hi hnone => ?_ <;>
        simp only [State.setForkPc, forkCopy, modify_proc] at *
      · grind
      · grind
      · grind
  | forkRunnable c cur np =>
    have hcopied := (hforks.copied cur np henabled.2.1).2.2
    have htable := h.modify (q := np) (f := fun p => { p with state := .runnable })
      (fun _ => .inr (.inl rfl)) rfl (fun _ => .inr (by simp [hcopied]))
    exact htable.congr rfl rfl
  | exit c cur =>
    obtain ⟨⟨⟨hcpu, -⟩, -, -⟩, hinit⟩ := henabled
    obtain ⟨hwakes, hparent, -, -⟩ := abandons_exitFamily hinit
    simp only [Cpus.effect, PTable.exit]
    generalize s.table.exitFamily cur = t at hwakes hparent ⊢
    have halive := hrunning hcpu
    have hstate := hwakes.state
    obtain ⟨r, hr, hliving⟩ := h.init
    have hinit' : t.initproc = some r := hwakes.initproc.trans hr
    have hne : r ≠ cur := by
      rintro rfl
      exact hinit hr
    have hpar := h.parent
    have hhas := h.hasParent
    refine ⟨⟨r, hinit', ?_⟩, fun i p hp => ?_, fun i hi hi' => ?_⟩ <;>
      simp only [State.sched, State.setPc, State.setCpu, modify_proc, modify_initproc] at *
    · grind [Alive]
    · grind [Alive]
    · grind [Alive]
  | wait c cur => exact h.congr rfl rfl
  | scan c cur =>
    have halive := hrunning henabled.1
    simp only [Cpus.effect]
    rcases wait_spec s.table cur with ⟨pid, i, -, hzombie, hwait⟩ | hwait | hwait
    · simp only [hwait]
      refine h.frame rfl (fun p hp => ?_) (fun i p hp => ?_) fun i hi hnone => ?_ <;>
        simp only [State.setPc, modify_proc] at *
      · grind [Alive]
      · grind
      · grind [Alive]
    · simp only [hwait]
      exact h.congr rfl rfl
    · simp only [hwait]
      have htable := h.modify (f := fun p =>
        { p with chan := some (.proc cur), state := .sleeping })
        (fun _ => .inl rfl) rfl (fun _ => .inl halive)
      exact htable.congr rfl rfl
  | kill c cur pid => exact h.wakes (wakes_kill s.table pid) (kill_parent _ _)
  | yield c cur =>
    have htable := h.modify (f := fun p => { p with state := .runnable })
      (fun _ => .inr (.inl rfl)) rfl (fun _ => .inl (hrunning henabled.1.1))
    exact htable.congr rfl rfl
  | sleep c cur addr =>
    have htable := h.modify (f := fun p =>
      { p with chan := some (.addr addr), state := .sleeping })
      (fun _ => .inl rfl) rfl (fun _ => .inl (hrunning henabled.1.1))
    exact htable.congr rfl rfl
  | resume c cur =>
    have htable := h.modify (q := cur) (f := fun p => { p with chan := none }) (fun hp => hp) rfl
      (fun _ => .inl (hrunning henabled.1))
    simp only [Cpus.effect]
    split
    · exact htable.congr rfl rfl
    · exact htable.congr rfl rfl
    · exact h.congr rfl rfl
  | wakeup addr => exact h.wakes (wakes_wakeup1 _ _) (wakeup1_parent _ _)
  | enter c => exact h.congr rfl rfl
  | dispatch c i =>
    have htable := h.modify (q := i) (f := fun p =>
      { p with
        state := .running
        responseTime :=
          if p.serv = 0 then wrapUint ((s.table.ticks : ℤ) - p.responseTime) else p.responseTime
        serv := if p.serv = 0 then 1 else p.serv }) (fun _ => .inr (.inr rfl)) rfl
      (fun _ => .inl (.inr (.inl henabled.2.2)))
    exact htable.congr rfl rfl
  | leave c => exact h.congr rfl rfl
  | tick => exact h.congr rfl rfl

/-! ## Pids -/

/-- The step takes a pid. -/
def Action.allocates : Action C → Bool
  | .allocproc _ _ _ => true
  | _ => false

/-- The pids given out so far; `userinit` took the first one. -/
def allocations (trace : List (Action C)) : ℕ := trace.countP Action.allocates + 1

/-- The pids in use have been given out, and are different. -/
structure Pids (given : ℕ) (t : PTable) : Prop where
  /-- `nextpid` counts the pids. -/
  nextpid : t.nextpid = given + 1
  /-- Pids in use have been given out. -/
  range : ∀ i, (t.proc i).state ≠ .unused → 0 < (t.proc i).pid ∧ (t.proc i).pid ≤ given
  /-- No two slots in use have the same pid. -/
  distinct : ∀ i j, (t.proc i).state ≠ .unused → (t.proc j).state ≠ .unused →
    (t.proc i).pid = (t.proc j).pid → i = j

/-- What takes no pid, and puts no free slot to use. -/
structure KeepsPids (t t' : PTable) : Prop where
  /-- No pid is taken. -/
  nextpid : t'.nextpid = t.nextpid
  /-- Slots in use were in use, with the same pid. -/
  used : ∀ j, (t'.proc j).state ≠ .unused →
    (t.proc j).state ≠ .unused ∧ (t'.proc j).pid = (t.proc j).pid
  /-- No slot becomes `EMBRYO`. -/
  embryo : ∀ j, (t'.proc j).state = .embryo → (t.proc j).state = .embryo

theorem KeepsPids.refl (t : PTable) : KeepsPids t t :=
  ⟨rfl, fun _ hj => ⟨hj, rfl⟩, fun _ hj => hj⟩

theorem KeepsPids.trans {t t' t'' : PTable} (hfirst : KeepsPids t t') (hsecond : KeepsPids t' t'') :
    KeepsPids t t'' := by
  refine ⟨hsecond.nextpid.trans hfirst.nextpid, fun j hj => ?_, fun j hj => ?_⟩
  · obtain ⟨hmid, hpid⟩ := hsecond.used j hj
    obtain ⟨hold, hpid'⟩ := hfirst.used j hmid
    exact ⟨hold, hpid.trans hpid'⟩
  · exact hfirst.embryo j (hsecond.embryo j hj)

/-- A change of one slot that keeps its pid and does not put it to use. -/
theorem keepsPids_modify {t : PTable} {i : Slot} {f : Proc → Proc}
    (hused : (f (t.proc i)).state ≠ .unused →
      (t.proc i).state ≠ .unused ∧ (f (t.proc i)).pid = (t.proc i).pid)
    (hembryo : (f (t.proc i)).state = .embryo → (t.proc i).state = .embryo) :
    KeepsPids t (t.modify i f) := by
  refine ⟨rfl, fun j hj => ?_, fun j hj => ?_⟩
  · rw [modify_proc] at hj ⊢
    split_ifs at hj ⊢ with heq
    · exact heq ▸ hused (heq ▸ hj)
    · exact ⟨hj, rfl⟩
  · rw [modify_proc] at hj
    split_ifs at hj with heq
    · exact heq ▸ hembryo (heq ▸ hj)
    · exact hj

theorem keepsPids_wakes {t t' : PTable} (hwakes : Wakes t t') : KeepsPids t t' := by
  refine ⟨hwakes.nextpid, fun j hj => ⟨?_, hwakes.pid j⟩, fun j hj => ?_⟩
  · rcases hwakes.state j with hsame | ⟨hsleeping, -⟩
    · rwa [← hsame]
    · simp [hsleeping]
  · rcases hwakes.state j with hsame | ⟨-, hwoken⟩
    · rwa [← hsame]
    · rw [hwoken] at hj
      cases hj

/-- Steps that take no pid keep the pids. -/
theorem Pids.keeps {given : ℕ} {t t' : PTable} (h : Pids given t) (hkeeps : KeepsPids t t') :
    Pids given t' := by
  refine ⟨hkeeps.nextpid.trans h.nextpid, fun i hi => ?_, fun i j hi hj hpid => ?_⟩
  · obtain ⟨hold, hsame⟩ := hkeeps.used i hi
    rw [hsame]
    exact h.range i hold
  · obtain ⟨hold, hsame⟩ := hkeeps.used i hi
    obtain ⟨hold', hsame'⟩ := hkeeps.used j hj
    exact h.distinct i j hold hold' (by rw [← hsame, ← hsame', hpid])

/-- `allocproc` gives out the next pid. -/
theorem Pids.allocprocEmbryo {given : ℕ} {t : PTable} (h : Pids given t)
    (hfew : (given : ℤ) + 1 < intMax) (np : Slot) : Pids (given + 1) (t.allocprocEmbryo np) := by
  have hnext := h.nextpid
  have hrange := h.range
  have hdistinct := h.distinct
  have hwrap : wrapInt (t.nextpid + 1) = t.nextpid + 1 := by
    rw [hnext]
    exact wrapInt_succ (by omega) hfew
  refine ⟨?_, fun i hi => ?_, fun i j hi hj hpid => ?_⟩ <;>
    simp only [PTable.allocprocEmbryo, modify_proc] at *
  · rw [hwrap, hnext]
    push_cast
    ring
  · grind
  · grind

/-- Every step but `allocproc` keeps the pids. -/
theorem keepsPids_effect {a : Action C} (hcpus : OnCpus s) (hforks : Forks s)
    (henabled : Enabled s a) (hnone : a.allocates = false) :
    KeepsPids s.table (effect s a).table := by
  have hrunning : ∀ {c cur}, s.cpu c = some cur → (s.table.proc cur).state = .running :=
    fun hcpu => hcpus.running _ _ hcpu
  cases a with
  | allocproc c cur np => cases hnone
  | kalloc c cur np kstack =>
    have hembryo := hforks.child cur np (by simp [henabled.2, ForkPc.child])
    simp only [Cpus.effect]
    split_ifs
    · have htable : KeepsPids s.table (s.table.allocprocFail np) :=
        keepsPids_modify (by simp) (by simp)
      exact htable
    · have htable : KeepsPids s.table (s.table.allocprocInit np kstack) :=
        keepsPids_modify (by simp [hembryo]) (by simp [hembryo])
      exact htable
  | copyuvm c cur np pgdir =>
    have hembryo := hforks.child cur np (by simp [henabled.2, ForkPc.child])
    simp only [Cpus.effect]
    split_ifs
    · have htable : KeepsPids s.table (s.table.forkFail np) := keepsPids_modify (by simp) (by simp)
      exact htable
    · have htable : KeepsPids s.table (s.table.forkCopy cur np pgdir) :=
        keepsPids_modify (by simp [hembryo]) (by simp [hembryo])
      exact htable
  | forkRunnable c cur np =>
    have hembryo := hforks.child cur np (by simp [henabled.2.1, ForkPc.child])
    have htable : KeepsPids s.table (s.table.forkRunnable np) :=
      keepsPids_modify (by simp [hembryo]) (by simp [hembryo])
    exact htable
  | exit c cur =>
    obtain ⟨⟨⟨hcpu, -⟩, -, -⟩, hinit⟩ := henabled
    have hwakes := (abandons_exitFamily hinit).wakes
    simp only [Cpus.effect, PTable.exit]
    generalize s.table.exitFamily cur = t at hwakes ⊢
    have hcur : (t.proc cur).state ≠ .unused := by
      rcases hwakes.state cur with hsame | ⟨-, hwoken⟩
      · rw [hsame]
        simp [hrunning hcpu]
      · simp [hwoken]
    have htable : KeepsPids s.table (t.modify cur fun p =>
        { p with
          state := .zombie
          turnAroundTime := wrapUint ((s.table.ticks : ℤ) - p.turnAroundTime) }) :=
      (keepsPids_wakes hwakes).trans (keepsPids_modify (by simp [hcur]) (by simp))
    exact htable
  | scan c cur =>
    simp only [Cpus.effect]
    rcases wait_spec s.table cur with ⟨pid, i, -, hzombie, hwait⟩ | hwait | hwait
    · simp only [hwait, State.setPc]
      exact keepsPids_modify (by simp) (by simp)
    · simp only [hwait]
      exact .refl s.table
    · simp only [hwait, State.sched, State.setPc, State.setCpu, PTable.sleep]
      exact keepsPids_modify (by simp [hrunning henabled.1]) (by simp [hrunning henabled.1])
  | kill c cur pid => exact keepsPids_wakes (wakes_kill s.table pid)
  | yield c cur =>
    have htable : KeepsPids s.table (s.table.yield cur) :=
      keepsPids_modify (by simp [hrunning henabled.1.1]) (by simp [hrunning henabled.1.1])
    exact htable
  | sleep c cur addr =>
    have htable : KeepsPids s.table (s.table.sleep cur (some (.addr addr))) :=
      keepsPids_modify (by simp [hrunning henabled.1.1]) (by simp [hrunning henabled.1.1])
    exact htable
  | resume c cur =>
    have htable : KeepsPids s.table (s.table.sleepReturn cur) :=
      keepsPids_modify (by simp) (by simp)
    simp only [Cpus.effect]
    split
    · exact htable
    · exact htable
    · exact .refl s.table
  | wakeup addr => exact keepsPids_wakes (wakes_wakeup1 _ _)
  | dispatch c i =>
    have htable : KeepsPids s.table (s.table.dispatch i) :=
      keepsPids_modify (by simp [henabled.2.2]) (by simp [henabled.2.2])
    exact htable
  | wait _ _ | enter _ | leave _ => exact .refl s.table
  | tick => exact ⟨rfl, fun _ hj => ⟨hj, rfl⟩, fun _ hj => hj⟩

end

/-! ## Runs -/

/-- CPUs, forks and families fit together. -/
structure Inv (s : State C) : Prop where
  /-- CPUs, positions and channels. -/
  cpus : OnCpus s
  /-- Forks in progress. -/
  forks : Forks s
  /-- Parents. -/
  families : Families s

/-- What is claimed of the states in which `ptable.lock` is free. -/
structure Consistent (s : State C) : Prop where
  /-- A process is running exactly when it is the process of exactly one CPU. -/
  running : ∀ i, (s.table.proc i).state = .running ↔ ∃! c, s.cpu c = some i
  /-- `switchuvm` does not panic on a process that may run. -/
  resources : ∀ i, Alive (s.table.proc i).state →
    (s.table.proc i).kstack ≠ 0 ∧ (s.table.proc i).pgdir ≠ 0
  /-- A channel is held by a process that sleeps, or was woken and has not run yet. -/
  chan : ∀ i, (s.table.proc i).chan ≠ none → (s.table.proc i).state = .sleeping ∨
    (s.table.proc i).state = .runnable ∧ (s.pc i).InSleep
  /-- Pids in use are positive. -/
  pidPos : ∀ i, (s.table.proc i).state ≠ .unused → 0 < (s.table.proc i).pid
  /-- Pids in use are different. -/
  pidDistinct : ∀ i j, (s.table.proc i).state ≠ .unused → (s.table.proc j).state ≠ .unused →
    (s.table.proc i).pid = (s.table.proc j).pid → i = j
  /-- Every process but init has a parent that is alive. -/
  parent : ∀ i, Alive (s.table.proc i).state ∨ (s.table.proc i).state = .zombie →
    s.table.initproc ≠ some i →
      ∃ p, (s.table.proc i).parent = some p ∧ Alive (s.table.proc p).state

section

variable {kstack pgdir root : ℕ} {trace : List (Action C)} {s : State C}

omit [DecidableEq C] in
/-- The table after `userinit`. -/
theorem inv_boot (hkstack : kstack ≠ 0) (hpgdir : pgdir ≠ 0) :
    Inv (boot kstack pgdir root : State C) := by
  have hproc : ∀ i : Slot, i ≠ 0 →
      (boot kstack pgdir root : State C).table.proc i = Proc.zero := by
    intro i hi
    simp [boot, userinit, PTable.allocprocEmbryo, allocprocInit, modify_proc, hi, PTable.zero]
  have hzero : ((boot kstack pgdir root : State C).table.proc 0).state = .runnable ∧
      ((boot kstack pgdir root : State C).table.proc 0).kstack = kstack ∧
      ((boot kstack pgdir root : State C).table.proc 0).pgdir = pgdir ∧
      ((boot kstack pgdir root : State C).table.proc 0).chan = none ∧
      ((boot kstack pgdir root : State C).table.proc 0).parent = none := by
    simp [boot, userinit, PTable.allocprocEmbryo, allocprocInit, PTable.zero, Proc.zero]
  obtain ⟨hstate, hks, hpd, hchan, hparent⟩ := hzero
  have hother : ∀ i : Slot, i ≠ 0 →
      ((boot kstack pgdir root : State C).table.proc i).state = .unused ∧
      ((boot kstack pgdir root : State C).table.proc i).chan = none ∧
      ((boot kstack pgdir root : State C).table.proc i).parent = none := by
    intro i hi
    simp [hproc i hi, Proc.zero]
  have hpc : ∀ i, ¬ ((boot kstack pgdir root : State C).pc i).InSleep := by
    intro i
    simp only [boot]
    split_ifs <;> simp [Pc.InSleep]
  have hcpu : ∀ c, (boot kstack pgdir root : State C).cpu c = none := fun c => rfl
  have hfork : ∀ i, (boot kstack pgdir root : State C).forkPc i = .idle := fun i => rfl
  have hinit : (boot kstack pgdir root : State C).table.initproc = some 0 := rfl
  generalize (boot kstack pgdir root : State C) = s at *
  refine ⟨⟨?_, ?_, ?_, ?_, ?_, ?_, ?_⟩, ⟨?_, ?_, ?_, ?_, ?_, ?_⟩, ⟨?_, ?_, ?_⟩⟩
  · grind
  · grind
  · grind
  · grind
  · grind
  · grind
  · grind
  · grind [ForkPc.child]
  · grind [ForkPc.child]
  · grind
  · grind
  · grind
  · grind [Alive]
  · exact ⟨0, hinit, .inr (.inl hstate)⟩
  · grind
  · grind [Alive]

/-- Every step keeps the invariant. -/
theorem Inv.effect {a : Action C} (h : Inv s) (henabled : Enabled s a) : Inv (effect s a) where
  cpus := h.cpus.effect h.forks henabled
  forks := h.forks.effect h.cpus henabled
  families := h.families.effect h.cpus h.forks henabled

/-- Every run keeps the invariant. -/
theorem inv_run (hkstack : kstack ≠ 0) (hpgdir : pgdir ≠ 0)
    (hrun : Run step free (boot kstack pgdir root) trace s) : Inv s := by
  refine Run.invariant (I := fun _ s => Inv s) (inv_boot hkstack hpgdir) ?_ hrun
  intro _ s a s' hinv _ hstep
  obtain ⟨henabled, rfl⟩ := step_eq_some.mp hstep
  exact hinv.effect henabled

omit [DecidableEq C] in
/-- After `userinit` one pid has been given out. -/
theorem pids_boot : Pids 1 (boot kstack pgdir root : State C).table := by
  have hproc : ∀ i : Slot, i ≠ 0 →
      ((boot kstack pgdir root : State C).table.proc i).state = .unused := by
    intro i hi
    simp [boot, userinit, PTable.allocprocEmbryo, allocprocInit, modify_proc, hi, PTable.zero,
      Proc.zero]
  have hnext : wrapInt (1 + 1) = (1 : ℕ) + 1 := by decide
  refine ⟨hnext, fun i hi => ?_, fun i j hi hj _ => ?_⟩
  · have hzero : i = 0 := by
      by_contra hne
      exact hi (hproc i hne)
    subst hzero
    simp [boot, userinit, PTable.allocprocEmbryo, allocprocInit, PTable.zero]
  · have hzero : ∀ k : Slot, ((boot kstack pgdir root : State C).table.proc k).state ≠ .unused →
        k = 0 := by
      intro k hk
      by_contra hne
      exact hk (hproc k hne)
    rw [hzero i hi, hzero j hj]

/-- With fewer than `2 ^ 31 - 1` allocations the pids never wrap. -/
theorem pids_run (hkstack : kstack ≠ 0) (hpgdir : pgdir ≠ 0)
    (hrun : Run step free (boot kstack pgdir root) trace s)
    (hfew : (allocations trace : ℤ) < intMax) : Pids (allocations trace) s.table := by
  induction hrun with
  | start => exact pids_boot
  | @step trace s s' a hrun hguard hstep ih =>
    have hinv := inv_run hkstack hpgdir hrun
    obtain ⟨henabled, rfl⟩ := step_eq_some.mp hstep
    by_cases halloc : a.allocates = true
    · have hcount : allocations (a :: trace) = allocations trace + 1 := by
        simp [allocations, halloc]
      rw [hcount] at hfew ⊢
      push_cast at hfew
      cases a with
      | allocproc c cur np => exact (ih (by omega)).allocprocEmbryo (by omega) np
      | _ => cases halloc
    · have hnone : a.allocates = false := by simpa using halloc
      have hcount : allocations (a :: trace) = allocations trace := by
        simp [allocations, hnone]
      rw [hcount] at hfew ⊢
      exact (ih hfew).keeps (keepsPids_effect hinv.cpus hinv.forks henabled hnone)

/-- In every state of every run in which `ptable.lock` is free the process table is
consistent. -/
theorem process_table_consistent (hkstack : kstack ≠ 0) (hpgdir : pgdir ≠ 0)
    (hrun : Run step free (boot kstack pgdir root) trace s)
    (hfew : (allocations trace : ℤ) < intMax) (hlock : s.lock = none) : Consistent s := by
  obtain ⟨hcpus, hforks, hfamilies⟩ := inv_run hkstack hpgdir hrun
  have hpids := pids_run hkstack hpgdir hrun hfew
  refine ⟨fun i => ⟨fun hi => ?_, fun hi => ?_⟩, hforks.resources, fun i hi => ?_, fun i hi => ?_,
    hpids.distinct, fun i hi hne => ?_⟩
  · obtain ⟨c, hc⟩ := hcpus.hasCpu i hi
    exact ⟨c, hc, fun d hd => hcpus.distinct d c i hd hc⟩
  · obtain ⟨c, hc, -⟩ := hi
    exact hcpus.running c i hc
  · have hpc := hcpus.chan i hi
    rcases hcpus.alive i hpc with hsleeping | hrunnable | hrunning
    · exact .inl hsleeping
    · exact .inr ⟨hrunnable, hpc⟩
    · -- a process that runs in `sleep` holds the lock
      obtain ⟨c, hc⟩ := hcpus.hasCpu i hrunning
      have hout : s.pc i ≠ .outside := by rcases hpc with h | h <;> simp [h]
      have hheld := hcpus.locked c i hc hout
      simp [hlock] at hheld
  · exact (hpids.range i hi).1
  · obtain ⟨p, hp⟩ := Option.ne_none_iff_exists'.mp (hfamilies.hasParent i hi hne)
    exact ⟨p, hp, hfamilies.parent i p hp⟩

end

/-- Init forks; a second CPU runs the child, init waits for it and falls asleep; the child exits
and wakes init, which reaps it. -/
def forkExitWait (c d : C) (parent child : Slot) : List (Action C) :=
  [.enter c, .dispatch c parent, .resume c parent,
    .allocproc c parent child, .kalloc c parent child 4096, .copyuvm c parent child 8192,
    .forkRunnable c parent child, .enter d, .dispatch d child, .resume d child,
    .wait c parent, .scan c parent, .leave c, .exit d child, .dispatch d parent, .resume d parent,
    .scan d parent]

/-- After that run the lock is free and the table is consistent. -/
theorem process_table_consistent_forkExitWait :
    ∃ s : State (Fin 2), exec step free [] (boot 4096 8192 1) (forkExitWait 0 1 0 1) = some s ∧
      s.lock = none ∧ Consistent s := by
  have hexec : (exec step free [] (boot 4096 8192 1 : State (Fin 2)) (forkExitWait 0 1 0 1)).any
      (fun s => s.lock == none) = true := by
    decide +kernel
  obtain ⟨s, hs, hlock⟩ := (Option.any_eq_true _ _).mp hexec
  have hfree : s.lock = none := by simpa using hlock
  refine ⟨s, hs, hfree, ?_⟩
  exact process_table_consistent (by decide) (by decide) (run_of_exec hs) (by decide) hfree

end Cpus

end Xv6
