import Xv6.Proc

/-!
# The lottery scheduler

`random_at_most` and one iteration of the outer loop of `scheduler`: the sum of the tickets,
the draw, and the scan of the process table. After the chosen process has come back the scan
goes on with a draw of 0, so it also dispatches every `RUNNABLE` slot behind the winner. One
process is dispatched exactly when the winner is the last `RUNNABLE` slot.
-/

namespace Xv6

/-! ## Random draws -/

/-- `RAND_MAX`. -/
def randMax : ℕ := 0x7fffffff

/-- `num_rand`: the values of `genrand` are below it. -/
def numRand : ℕ := randMax + 1

/-- `num_bins`. -/
def numBins (max : ℤ) : ℕ := wrapUint (max + 1)

/-- `bin_size`. -/
def binSize (max : ℤ) : ℕ := numRand / numBins max

/-- `defect`. -/
def defect (max : ℤ) : ℕ := numRand % numBins max

/-- `random_at_most` on the values that `genrand` returns, as long as there are any. -/
def randomAtMost (max : ℤ) : List ℕ → Option ℕ
  | [] => none
  | x :: draws =>
      if numRand - defect max ≤ x then randomAtMost max draws else some (x / binSize max)

/-! ## One iteration of the scheduler -/

namespace PTable

/-- The loop that sums up `lottery_total_tickets`. -/
def lotteryTotalTickets (t : PTable) : ℤ :=
  (List.finRange nproc).foldl (fun total i =>
    if (t.proc i).state = .runnable then wrapInt ((t.proc i).ticket + total) else total) 0

/-- The scan over the rest of the table: the slots that are dispatched, in order, and the
table at the end. `run i` stands for what happens while slot `i` runs. -/
def scan (run : Slot → PTable → PTable) : PTable → ℤ → ℤ → List Slot → List Slot × PTable
  | t, _, _, [] => ([], t)
  | t, chance, passedTickets, i :: slots =>
      if (t.proc i).state ≠ .runnable then scan run t chance passedTickets slots
      else if wrapInt (passedTickets + (t.proc i).ticket) < chance then
        scan run t chance (wrapInt (passedTickets + (t.proc i).ticket)) slots
      else
        -- `chance` and `passed_tickets` are 0 after the process comes back
        let rest := scan run (run i (t.dispatch i)) 0 0 slots
        (i :: rest.1, rest.2)

/-- The scan of a whole iteration, for a given draw. -/
def pass (run : Slot → PTable → PTable) (t : PTable) (chance : ℤ) : List Slot × PTable :=
  scan run t chance 0 (List.finRange nproc)

/-- An iteration of the outer loop of `scheduler` on the values that `genrand` returns. -/
def scheduler (run : Slot → PTable → PTable) (t : PTable) (draws : List ℕ) :
    Option (List Slot × PTable) :=
  (randomAtMost t.lotteryTotalTickets draws).map fun chance : ℕ => pass run t chance

/-! ## The runnable slots -/

/-- The `RUNNABLE` slots of a stretch of the table. -/
def runnableIn (t : PTable) (slots : List Slot) : List Slot :=
  slots.filter fun i => (t.proc i).state = .runnable

/-- The `RUNNABLE` slots, in table order. -/
def runnables (t : PTable) : List Slot := t.runnableIn (List.finRange nproc)

/-- The sum of the tickets of some slots. -/
def ticketSum (t : PTable) (slots : List Slot) : ℤ := (slots.map fun i => (t.proc i).ticket).sum

/-- The tickets of the `RUNNABLE` slots up to and including slot `i`, as an `int`. -/
def cumulativeTickets (t : PTable) (i : Slot) : ℤ :=
  wrapInt (t.ticketSum (t.runnables.filter (· ≤ i)))

/-- The slot the lottery is to choose: the first `RUNNABLE` slot in table order whose
cumulative ticket sum reaches the draw. -/
structure IsWinner (t : PTable) (chance : ℤ) (i : Slot) : Prop where
  /-- It is `RUNNABLE`. -/
  runnable : (t.proc i).state = .runnable
  /-- It reaches the draw. -/
  reaches : chance ≤ t.cumulativeTickets i
  /-- No earlier `RUNNABLE` slot does. -/
  first : ∀ j < i, (t.proc j).state = .runnable → t.cumulativeTickets j < chance

/-- The `RUNNABLE` slots hold tickets, in the range of `int`. -/
def TicketsPositive (t : PTable) : Prop :=
  ∀ i, (t.proc i).state = .runnable → 0 < (t.proc i).ticket ∧ (t.proc i).ticket ≤ intMax

/-- While a process runs, no other slot changes state, and no ticket of a `RUNNABLE` slot is
written: tickets are written by `allocproc` on its new slot and, past the end of the counters,
by `register_syscall` on the slot of its caller. -/
structure LeavesOthers (run : Slot → PTable → PTable) : Prop where
  /-- States of other slots stay. -/
  state : ∀ i t j, j ≠ i → ((run i t).proc j).state = (t.proc j).state
  /-- Tickets of other slots stay while they are `RUNNABLE`. -/
  ticket : ∀ i t j, j ≠ i → (t.proc j).state = .runnable →
    ((run i t).proc j).ticket = (t.proc j).ticket

@[simp] theorem mem_runnableIn {t : PTable} {slots : List Slot} {i : Slot} :
    i ∈ t.runnableIn slots ↔ i ∈ slots ∧ (t.proc i).state = .runnable := by
  simp [runnableIn]

theorem mem_runnables {t : PTable} {i : Slot} :
    i ∈ t.runnables ↔ (t.proc i).state = .runnable := by
  simp [runnables]

/-- The list of `RUNNABLE` slots is in table order. -/
theorem pairwise_runnables (t : PTable) : t.runnables.Pairwise (· < ·) := by
  unfold runnables runnableIn
  exact (List.pairwise_lt_finRange nproc).filter _

theorem nodup_runnables (t : PTable) : t.runnables.Nodup :=
  (pairwise_runnables t).imp fun h => h.ne

@[simp] theorem ticketSum_nil (t : PTable) : t.ticketSum [] = 0 := rfl

@[simp] theorem ticketSum_cons (t : PTable) (i : Slot) (slots : List Slot) :
    t.ticketSum (i :: slots) = (t.proc i).ticket + t.ticketSum slots := by
  simp [ticketSum]

/-- The loop computes the `int` sum of the tickets of all `RUNNABLE` slots. -/
theorem lotteryTotalTickets_eq (t : PTable) :
    t.lotteryTotalTickets = wrapInt (t.ticketSum t.runnables) := by
  have hfold : ∀ (slots : List Slot) (s : ℤ),
      slots.foldl (fun total i =>
        if (t.proc i).state = .runnable then wrapInt ((t.proc i).ticket + total) else total)
        (wrapInt s) = wrapInt (s + t.ticketSum (t.runnableIn slots)) := by
    intro slots
    induction slots with
    | nil => intro s; simp [runnableIn]
    | cons i slots ih =>
      intro s
      by_cases hi : (t.proc i).state = .runnable
      · simp only [List.foldl_cons, runnableIn, List.filter_cons, hi, decide_true, if_true,
          ticketSum_cons]
        rw [Int.add_comm _ (wrapInt s), wrapInt_add_wrapInt, ih, Int.add_assoc]
        rfl
      · simp only [List.foldl_cons, runnableIn, List.filter_cons, hi, decide_false, if_false,
          Bool.false_eq_true]
        exact ih s
  have hzero : wrapInt 0 = 0 := rfl
  have htotal := hfold (List.finRange nproc) 0
  rwa [hzero, Int.zero_add] at htotal

/-- The cumulative sum at a slot sums up the part of the list that ends there. -/
theorem cumulativeTickets_eq {t : PTable} {before behind : List Slot} {i : Slot}
    (hsplit : t.runnables = before ++ i :: behind) :
    t.cumulativeTickets i = wrapInt (t.ticketSum (before ++ [i])) := by
  have hsorted := pairwise_runnables t
  rw [hsplit, List.pairwise_append] at hsorted
  obtain ⟨-, htail, hcross⟩ := hsorted
  have hbefore : before.filter (· ≤ i) = before := by
    refine List.filter_eq_self.mpr fun j hj => ?_
    simpa using (hcross j hj i List.mem_cons_self).le
  have hbehind : behind.filter (· ≤ i) = [] := by
    refine List.filter_eq_nil_iff.mpr fun j hj => ?_
    simpa using List.rel_of_pairwise_cons htail hj
  rw [cumulativeTickets, hsplit, List.filter_append, List.filter_cons, hbefore, hbehind]
  simp

/-! ## What the scan dispatches -/

/-- The slots from the first one on at which the sum of the tickets reaches the draw. -/
def fromWinner (t : PTable) (chance : ℤ) : ℤ → List Slot → List Slot
  | _, [] => []
  | s, i :: slots =>
      if wrapInt (s + (t.proc i).ticket) < chance then
        fromWinner t chance (s + (t.proc i).ticket) slots
      else i :: slots

/-- The `RUNNABLE` slots of a stretch of the table hold tickets, in the range of `int`. -/
def PositiveOn (t : PTable) (slots : List Slot) : Prop :=
  ∀ i ∈ slots, (t.proc i).state = .runnable → 0 < (t.proc i).ticket ∧ (t.proc i).ticket ≤ intMax

/-- When slot `i` has run, the same slots of the rest of the table are `RUNNABLE`, and they
hold tickets if they did before. -/
theorem LeavesOthers.rest {run : Slot → PTable → PTable} (hrun : LeavesOthers run) (t : PTable)
    {i : Slot} {slots : List Slot} (hi : i ∉ slots) :
    (run i (t.dispatch i)).runnableIn slots = t.runnableIn slots ∧
      (t.PositiveOn slots → (run i (t.dispatch i)).PositiveOn slots) := by
  have hproc : ∀ j ∈ slots, j ≠ i ∧ (t.dispatch i).proc j = t.proc j := by
    intro j hj
    have hne : j ≠ i := fun h => hi (h ▸ hj)
    exact ⟨hne, modify_proc_of_ne hne⟩
  have hstate : ∀ j ∈ slots, ((run i (t.dispatch i)).proc j).state = (t.proc j).state := by
    intro j hj
    rw [hrun.state i _ j (hproc j hj).1, (hproc j hj).2]
  constructor
  · refine List.filter_congr fun j hj => ?_
    rw [hstate j hj]
  · intro hpos j hj hrunnable
    rw [hstate j hj] at hrunnable
    rw [hrun.ticket i _ j (hproc j hj).1 ((hproc j hj).2 ▸ hrunnable), (hproc j hj).2]
    exact hpos j hj hrunnable

/-- With a draw of 0 the scan dispatches every `RUNNABLE` slot. -/
theorem scan_zero {run : Slot → PTable → PTable} (hrun : LeavesOthers run) {t : PTable}
    {slots : List Slot} (hnodup : slots.Nodup) (hpos : t.PositiveOn slots) :
    (scan run t 0 0 slots).1 = t.runnableIn slots := by
  induction slots generalizing t with
  | nil => rfl
  | cons i slots ih =>
    obtain ⟨hi, hnodup⟩ := List.nodup_cons.mp hnodup
    have hrestpos : t.PositiveOn slots := fun j hj => hpos j (List.mem_cons_of_mem i hj)
    by_cases hrunnable : (t.proc i).state = .runnable
    · obtain ⟨hlo, hhi⟩ := hpos i List.mem_cons_self hrunnable
      have hreach : ¬ wrapInt (0 + (t.proc i).ticket) < 0 := by
        rw [Int.zero_add, wrapInt_of_mem (by omega) hhi]
        omega
      obtain ⟨hsame, hkeep⟩ := hrun.rest t hi
      have hrest := ih hnodup (hkeep hrestpos)
      rw [scan, if_neg (not_not.mpr hrunnable), if_neg hreach]
      dsimp only
      rw [hrest, hsame]
      simp [runnableIn, hrunnable]
    · rw [scan, if_pos hrunnable, ih hnodup hrestpos]
      simp [runnableIn, hrunnable]

/-- The scan dispatches the first slot that reaches the draw and every `RUNNABLE` slot behind
it. -/
theorem scan_dispatched {run : Slot → PTable → PTable} (hrun : LeavesOthers run) {t : PTable}
    {slots : List Slot} (hnodup : slots.Nodup) (hpos : t.PositiveOn slots) (chance s : ℤ) :
    (scan run t chance (wrapInt s) slots).1 = t.fromWinner chance s (t.runnableIn slots) := by
  induction slots generalizing s with
  | nil => rfl
  | cons i slots ih =>
    obtain ⟨hi, hnodup⟩ := List.nodup_cons.mp hnodup
    have hrestpos : t.PositiveOn slots := fun j hj => hpos j (List.mem_cons_of_mem i hj)
    by_cases hrunnable : (t.proc i).state = .runnable
    · have hfilter : t.runnableIn (i :: slots) = i :: t.runnableIn slots := by
        simp [runnableIn, hrunnable]
      rw [scan, if_neg (not_not.mpr hrunnable), wrapInt_add_wrapInt, hfilter, fromWinner]
      split_ifs with hlost
      · exact ih hnodup hrestpos _
      · obtain ⟨hsame, hkeep⟩ := hrun.rest t hi
        have hrest := scan_zero hrun hnodup (hkeep hrestpos)
        dsimp only
        rw [hrest, hsame]
    · have hfilter : t.runnableIn (i :: slots) = t.runnableIn slots := by
        simp [runnableIn, hrunnable]
      rw [scan, if_pos hrunnable, hfilter]
      exact ih hnodup hrestpos s

/-- The slots passed over stay below the draw, and the first slot that is not passed over
reaches it. -/
theorem fromWinner_split (t : PTable) (chance s : ℤ) (slots : List Slot) :
    ∃ lost, slots = lost ++ t.fromWinner chance s slots ∧
      (∀ before i behind, lost = before ++ i :: behind →
        wrapInt (s + t.ticketSum (before ++ [i])) < chance) ∧
      ∀ i behind, t.fromWinner chance s slots = i :: behind →
        chance ≤ wrapInt (s + t.ticketSum (lost ++ [i])) := by
  induction slots generalizing s with
  | nil => exact ⟨[], rfl, by simp, by simp [fromWinner]⟩
  | cons a slots ih =>
    rw [fromWinner]
    split_ifs with hlost
    · obtain ⟨lost, hsplit, hbelow, hreach⟩ := ih (s + (t.proc a).ticket)
      refine ⟨a :: lost, by rw [List.cons_append, ← hsplit], ?_, ?_⟩
      · intro before i behind hbefore
        cases before with
        | nil =>
          cases hbefore
          simpa using hlost
        | cons b before =>
          rw [List.cons_append] at hbefore
          obtain ⟨rfl, hlost'⟩ := List.cons.inj hbefore
          have hlt := hbelow before i behind hlost'
          rwa [Int.add_assoc] at hlt
      · intro i behind hi
        have hle := hreach i behind hi
        rwa [Int.add_assoc] at hle
    · refine ⟨[], rfl, by simp, fun i behind hi => ?_⟩
      obtain ⟨rfl, -⟩ := List.cons.inj hi
      simpa using hlost

/-! ## One dispatch per draw -/

/-- Every pass dispatches the winner of its draw and every `RUNNABLE` slot behind it. -/
theorem pass_dispatched {run : Slot → PTable → PTable} (hrun : LeavesOthers run) {t : PTable}
    (hpos : t.TicketsPositive) {chance : ℤ} (hsome : ∃ i, (t.proc i).state = .runnable)
    (hchance : chance ≤ t.lotteryTotalTickets) :
    ∃ lost winner behind, t.runnables = lost ++ winner :: behind ∧ t.IsWinner chance winner ∧
      (pass run t chance).1 = winner :: behind := by
  have hscan : (pass run t chance).1 = t.fromWinner chance 0 t.runnables :=
    scan_dispatched hrun (List.nodup_finRange nproc) (fun i _ => hpos i) chance 0
  obtain ⟨lost, hsplit, hbelow, hreach⟩ := t.fromWinner_split chance 0 t.runnables
  simp only [Int.zero_add] at hbelow hreach
  rw [← hscan] at hsplit hreach
  cases hdispatched : (pass run t chance).1 with
  | nil =>
    -- the last `RUNNABLE` slot reaches every draw
    rw [hdispatched, List.append_nil] at hsplit
    obtain ⟨i, hi⟩ := hsome
    have hne : t.runnables ≠ [] := List.ne_nil_of_mem (mem_runnables.mpr hi)
    have hlast := hbelow t.runnables.dropLast (t.runnables.getLast hne) []
      (by rw [← hsplit, List.dropLast_append_getLast])
    rw [List.dropLast_append_getLast, ← lotteryTotalTickets_eq] at hlast
    omega
  | cons winner behind =>
    rw [hdispatched] at hsplit
    refine ⟨lost, winner, behind, hsplit, ⟨?_, ?_, fun j hj hrunnable => ?_⟩, rfl⟩
    · exact mem_runnables.mp (by rw [hsplit]; simp)
    · rw [cumulativeTickets_eq hsplit]
      exact hreach winner behind hdispatched
    · -- an earlier slot is among those passed over
      have hmem : j ∈ lost := by
        have hj' : j ∈ lost ++ winner :: behind := hsplit ▸ mem_runnables.mpr hrunnable
        have hsorted := pairwise_runnables t
        rw [hsplit, List.pairwise_append] at hsorted
        rcases List.mem_append.mp hj' with hlost | hrest
        · exact hlost
        · rcases List.mem_cons.mp hrest with rfl | hbehind
          · exact absurd hj (lt_irrefl j)
          · exact absurd hj (List.rel_of_pairwise_cons hsorted.2.1 hbehind).not_gt
      obtain ⟨before, after, rfl⟩ := List.append_of_mem hmem
      rw [List.append_assoc, List.cons_append] at hsplit
      rw [cumulativeTickets_eq hsplit]
      exact hbelow before j after rfl

/-- A pass dispatches one process only, the winner of the draw, exactly when the draw exceeds
the cumulative tickets of every `RUNNABLE` slot that has another one behind it, that is,
when the winner is the last `RUNNABLE` slot. -/
theorem scheduler_one_dispatch {run : Slot → PTable → PTable} (hrun : LeavesOthers run) {t : PTable}
    (hpos : t.TicketsPositive) (hsome : ∃ i, (t.proc i).state = .runnable) {chance : ℤ}
    (hchance : 0 ≤ chance ∧ chance ≤ t.lotteryTotalTickets) :
    (∃ winner, t.IsWinner chance winner ∧ (pass run t chance).1 = [winner]) ↔
      ∀ i j, (t.proc i).state = .runnable → (t.proc j).state = .runnable → i < j →
        t.cumulativeTickets i < chance := by
  obtain ⟨lost, winner, behind, hsplit, hwinner, hdispatched⟩ :=
    pass_dispatched hrun hpos hsome hchance.2
  have hsorted := pairwise_runnables t
  rw [hsplit, List.pairwise_append] at hsorted
  rw [hdispatched]
  constructor
  · rintro ⟨winner', -, hone⟩ i j hi hj hij
    obtain ⟨rfl, rfl⟩ := List.cons.inj hone
    refine hwinner.first i ?_ hi
    have hj' : j ∈ lost ++ [winner] := hsplit ▸ mem_runnables.mpr hj
    rcases List.mem_append.mp hj' with hlost | hlast
    · exact hij.trans (hsorted.2.2 j hlost winner List.mem_cons_self)
    · rwa [List.mem_singleton.mp hlast] at hij
  · intro hbelow
    cases behind with
    | nil => exact ⟨winner, hwinner, rfl⟩
    | cons j behind =>
      have hj : (t.proc j).state = .runnable := mem_runnables.mp (by rw [hsplit]; simp)
      have hlt := hbelow winner j hwinner.runnable hj
        (List.rel_of_pairwise_cons hsorted.2.1 List.mem_cons_self)
      exact absurd hwinner.reaches (not_le.mpr hlt)

/-- Two `RUNNABLE` processes with ten tickets each. -/
def twoRunnable : PTable :=
  { zero with
    proc := fun i =>
      if i.val < 2 then { Proc.zero with state := .runnable, ticket := 10 } else .zero }

/-- A process that is preempted changes nothing but its own state. -/
theorem leavesOthers_yield : LeavesOthers fun i t => t.yield i := by
  refine ⟨fun i t j hne => ?_, fun i t j hne _ => ?_⟩ <;>
    rw [PTable.yield, modify_proc_of_ne hne]

/-- A draw beyond the tickets of the first process dispatches the second one only. -/
theorem scheduler_one_dispatch_twoRunnable :
    ∃ winner, twoRunnable.IsWinner 11 winner ∧
      (pass (fun i t => t.yield i) twoRunnable 11).1 = [winner] :=
  (scheduler_one_dispatch leavesOthers_yield (by unfold TicketsPositive; decide +kernel) ⟨0, rfl⟩
    (by decide +kernel)).mpr (by decide +kernel)

/-- A draw that the first process wins dispatches both. -/
theorem scheduler_two_dispatches :
    ¬ ∀ (run : Slot → PTable → PTable) (t : PTable) (chance : ℤ), LeavesOthers run →
      t.TicketsPositive → (∃ i, (t.proc i).state = .runnable) →
      0 ≤ chance ∧ chance ≤ t.lotteryTotalTickets →
      ∃ winner, t.IsWinner chance winner ∧ (pass run t chance).1 = [winner] := by
  intro hclaim
  have hpos : twoRunnable.TicketsPositive := by
    unfold TicketsPositive
    decide +kernel
  obtain ⟨winner, -, hone⟩ := hclaim _ twoRunnable 5 leavesOthers_yield hpos ⟨0, rfl⟩
    (by decide +kernel)
  have htwo : (pass (fun i t => t.yield i) twoRunnable 5).1 = [0, 1] := by decide +kernel
  simp [htwo] at hone

end PTable

end Xv6
