import Xv6.Proc

/-!
# The round-robin scheduler

The scan of the process table by the `scheduler` of the round-robin kernel, on one CPU. The
scan looks at one slot in each step and switches to a runnable one; while the process runs,
and while the lock of the table is free between two passes, the table may change in any way.
-/

namespace Xv6.RoundRobin

/-- The fields of `struct proc` that the scheduler uses. -/
structure Proc where
  /-- Process state. -/
  state : ProcState
  /-- Ticks until the first dispatch. -/
  responseTime : ℕ
  /-- Whether the process has been dispatched before. -/
  serv : ℤ
deriving DecidableEq

/-- `ptable.proc` and `ticks`. -/
structure World where
  /-- The slots. -/
  table : Slot → Proc
  /-- The tick counter. -/
  ticks : ℕ

/-- A point of the scan: `p` points to the slot `pos` of the table, or behind the last one. -/
structure Scan where
  /-- `p - ptable.proc`. -/
  pos : ℕ
  /-- The table as the scan finds it. -/
  world : World

/-- The chosen process becomes `RUNNING`. -/
def dispatch (w : World) (p : Slot) : World :=
  let proc := { w.table p with state := .running }
  { w with
    table := Function.update w.table p
      (if proc.serv = 0 then
        { proc with responseTime := wrapUint (w.ticks - proc.responseTime), serv := 1 }
      else proc) }

/-- One round of the loop over the table, or the start of the next pass, with the slot that
is switched to. What the process does until it comes back, and what happens while the lock is
free, is `env`. -/
def advance (s : Scan) (env : World → World) : Scan × Option Slot :=
  if hpos : s.pos < nproc then
    if (s.world.table ⟨s.pos, hpos⟩).state ≠ .runnable then (⟨s.pos + 1, s.world⟩, none)
    else (⟨s.pos + 1, env (dispatch s.world ⟨s.pos, hpos⟩)⟩, some ⟨s.pos, hpos⟩)
  else (⟨0, env s.world⟩, none)

/-- A run of `scheduler` of `steps` steps: the points of the scan, and the slots that were
switched to. -/
structure SchedulerRun (steps : ℕ) (scan : ℕ → Scan) (switch : ℕ → Option Slot) : Prop where
  /-- The first pass starts at the first slot. -/
  start : (scan 0).pos = 0
  /-- Every step is one of the code. -/
  step : ∀ n < steps, ∃ env, (scan (n + 1), switch n) = advance (scan n) env

/-- Step `n` of the scan reaches a slot. -/
def Visits (scan : ℕ → Scan) (n : ℕ) (p : Slot) : Prop := (scan n).pos = p

/-- A slot is runnable before step `n`. -/
def RunnableAt (scan : ℕ → Scan) (n : ℕ) (p : Slot) : Prop :=
  ((scan n).world.table p).state = .runnable

section Run

variable {steps : ℕ} {scan : ℕ → Scan} {switch : ℕ → Option Slot}

/-- The scan goes round the table, with one step between two passes. -/
theorem SchedulerRun.pos_eq (h : SchedulerRun steps scan switch) {n : ℕ} (hn : n ≤ steps) :
    (scan n).pos = n % (nproc + 1) := by
  induction n with
  | zero => simpa using h.start
  | succ n ih =>
    have hpos := ih (by omega)
    obtain ⟨env, hstep⟩ := h.step n (by omega)
    have hnext := congrArg (fun r => r.1.pos) hstep
    unfold advance at hnext
    unfold nproc at *
    split_ifs at hnext with hlt hstate
    all_goals
      simp only at hnext
      omega

/-- A step switches to a slot just when it reaches it and finds it runnable. -/
theorem SchedulerRun.switch_iff (h : SchedulerRun steps scan switch) {n : ℕ} (hn : n < steps)
    (p : Slot) : switch n = some p ↔ Visits scan n p ∧ RunnableAt scan n p := by
  obtain ⟨env, hstep⟩ := h.step n hn
  have hswitch := congrArg Prod.snd hstep
  unfold advance at hswitch
  unfold Visits RunnableAt
  split_ifs at hswitch with hlt hstate
  · simp only at hswitch
    constructor
    · intro hp
      simp [hp] at hswitch
    · rintro ⟨hpos, hrun⟩
      have hp : (⟨(scan n).pos, hlt⟩ : Slot) = p := Fin.ext hpos
      exact absurd (hp ▸ hrun) hstate
  · simp only at hswitch
    rw [hswitch, Option.some_inj]
    constructor
    · rintro rfl
      exact ⟨rfl, not_not.mp hstate⟩
    · rintro ⟨hpos, -⟩
      exact Fin.ext hpos
  · simp only at hswitch
    constructor
    · intro hp
      simp [hp] at hswitch
    · rintro ⟨hpos, -⟩
      exact absurd (hpos ▸ p.isLt) hlt

/-- The steps that reach a slot are those of one residue. -/
theorem SchedulerRun.visits_iff (h : SchedulerRun steps scan switch) {n : ℕ} (hn : n ≤ steps)
    (p : Slot) : Visits scan n p ↔ n % (nproc + 1) = p := by
  unfold Visits
  rw [h.pos_eq hn]

/-- Between two steps that reach a slot, every other slot is reached. -/
theorem SchedulerRun.exists_visit (h : SchedulerRun steps scan switch) {a b : ℕ} {p q : Slot}
    (hab : a < b) (hb : b < steps) (ha : Visits scan a p) (hbp : Visits scan b p) (hq : q ≠ p) :
    ∃ n, a < n ∧ n < b ∧ Visits scan n q := by
  have hne : (q : ℕ) ≠ p := fun he => hq (Fin.ext he)
  have hplt := p.isLt
  have hqlt := q.isLt
  rw [h.visits_iff (by omega)] at ha hbp
  unfold nproc at *
  by_cases hlt : (p : ℕ) < q
  · refine ⟨a + (q - p), by omega, by omega, ?_⟩
    rw [h.visits_iff (by unfold nproc at *; omega)]
    unfold nproc
    omega
  · refine ⟨a + (65 + q - p), by omega, by omega, ?_⟩
    rw [h.visits_iff (by unfold nproc at *; omega)]
    unfold nproc
    omega

/-- Between two steps that reach a slot one after the other, another slot is reached once. -/
theorem SchedulerRun.visit_unique (h : SchedulerRun steps scan switch) {a b : ℕ} {p q : Slot}
    (hb : b < steps) (ha : Visits scan a p)
    (hmid : ∀ n, a < n → n < b → ¬ Visits scan n p) {m n : ℕ} (ham : a < m) (hmb : m < b)
    (han : a < n) (hnb : n < b) (hm : Visits scan m q) (hn : Visits scan n q) : m = n := by
  have hround : b ≤ a + (nproc + 1) := by
    by_contra hlong
    apply hmid (a + (nproc + 1)) (by omega) (by omega)
    rw [h.visits_iff (by omega)] at ha ⊢
    unfold nproc at *
    omega
  rw [h.visits_iff (by omega)] at hm hn
  unfold nproc at *
  omega

/-- **Round-robin fairness.** Between two successive dispatches of a slot, every other slot
that is runnable whenever the scan reaches it is dispatched, and it is dispatched once if the
first slot was runnable, too, whenever the scan reached it. -/
theorem dispatched_between (h : SchedulerRun steps scan switch) {a b : ℕ} {p q : Slot}
    (hab : a < b) (hb : b < steps) (ha : switch a = some p) (hbp : switch b = some p)
    (hmid : ∀ n, a < n → n < b → switch n ≠ some p) (hq : q ≠ p)
    (hrun : ∀ n, a < n → n < b → Visits scan n q → RunnableAt scan n q) :
    (∃ n, a < n ∧ n < b ∧ switch n = some q) ∧
      ((∀ n, a < n → n < b → Visits scan n p → RunnableAt scan n p) →
        ∃! n, a < n ∧ n < b ∧ switch n = some q) := by
  have hpa := ((h.switch_iff (by omega) p).mp ha).1
  have hpb := ((h.switch_iff hb p).mp hbp).1
  obtain ⟨n, han, hnb, hvisit⟩ := h.exists_visit hab hb hpa hpb hq
  have hn : switch n = some q :=
    (h.switch_iff (by omega) q).mpr ⟨hvisit, hrun n han hnb hvisit⟩
  refine ⟨⟨n, han, hnb, hn⟩, fun hprun => ⟨n, ⟨han, hnb, hn⟩, ?_⟩⟩
  rintro m ⟨ham, hmb, hm⟩
  have hunvisited : ∀ k, a < k → k < b → ¬ Visits scan k p := fun k hak hkb hk =>
    hmid k hak hkb ((h.switch_iff (by omega) p).mpr ⟨hk, hprun k hak hkb hk⟩)
  have hmvisit := ((h.switch_iff (by omega) q).mp hm).1
  exact h.visit_unique hb hpa hunvisited ham hmb han hnb hmvisit hvisit

end Run

/-- A table of runnable processes. -/
def busyWorld : World := { table := fun _ => ⟨.runnable, 0, 0⟩, ticks := 0 }

/-- The scan of a table in which every process yields. -/
def busyScan (n : ℕ) : Scan := { pos := n % (nproc + 1), world := busyWorld }

/-- The dispatches of this scan. -/
def busySwitch (n : ℕ) : Option Slot :=
  if h : n % (nproc + 1) < nproc then some ⟨n % (nproc + 1), h⟩ else none

theorem busy_run (steps : ℕ) : SchedulerRun steps busyScan busySwitch where
  start := rfl
  step n _ := by
    refine ⟨fun _ => busyWorld, ?_⟩
    unfold advance
    by_cases hlt : n % (nproc + 1) < nproc
    · have hnext : (n + 1) % (nproc + 1) = n % (nproc + 1) + 1 := by
        unfold nproc at *
        omega
      simp [busyScan, busySwitch, hlt, hnext, busyWorld]
    · have hnext : (n + 1) % (nproc + 1) = 0 := by
        unfold nproc at *
        omega
      simp [busyScan, busySwitch, hlt, hnext]

theorem dispatched_between_busy :
    (∃ n, 0 < n ∧ n < 65 ∧ busySwitch n = some 1) ∧
      ((∀ n, 0 < n → n < 65 → Visits busyScan n 0 → RunnableAt busyScan n 0) →
        ∃! n, 0 < n ∧ n < 65 ∧ busySwitch n = some 1) := by
  apply dispatched_between (busy_run 66) (p := 0) (q := 1) (by decide) (by decide) (by decide)
    (by decide)
  · intro n hpos hlt hn
    have hvisit := ((busy_run 66).switch_iff (by omega) 0).mp hn
    have hzero : n % (nproc + 1) = 0 := hvisit.1
    unfold nproc at hzero
    omega
  · decide
  · intro n _ _ _
    rfl

end Xv6.RoundRobin
