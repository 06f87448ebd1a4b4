import Xv6.Lib.WeightedDraw
import Xv6.Scheduler

/-!
# The odds of the lottery

`random_at_most` draws from `0, …, T`, one value more than there are tickets, and the draw 0
goes to the first `RUNNABLE` slot. Counted over all accepted values of `genrand`, that slot
is dispatched first with one ticket too many and every slot is paid out of `T + 1`; so the
lottery is proportional only when there is no choice.
-/

namespace Xv6.PTable

open WeightedDraw

/-- The values of `genrand` that `random_at_most` accepts. -/
def accepted (max : ℤ) : Finset ℕ :=
  (Finset.range numRand).filter fun x => (randomAtMost max [x]).isSome

/-- The values of `genrand` with which slot `i` is the first to be dispatched. -/
def dispatchedFirst (run : Slot → PTable → PTable) (t : PTable) (i : Slot) : Finset ℕ :=
  (Finset.range numRand).filter fun x =>
    (scheduler run t [x]).bind (fun r => r.1.head?) = some i

/-- The fraction of the accepted values with which slot `i` is the first to be dispatched. -/
def firstFraction (run : Slot → PTable → PTable) (t : PTable) (i : Slot) : ℚ :=
  (dispatchedFirst run t i).card / (accepted t.lotteryTotalTickets).card

/-- The tickets of a slot as a weight. -/
def weight (t : PTable) (i : Slot) : ℕ := (t.proc i).ticket.toNat

/-! ## Bins of `random_at_most` -/

/-- For arguments below `RAND_MAX` there is a bin for each result. -/
theorem numBins_eq {n : ℕ} (hn : n + 1 ≤ randMax) : numBins n = n + 1 := by
  unfold numBins wrapUint
  unfold randMax at hn
  omega

/-- The bins are not empty. -/
theorem binSize_pos {n : ℕ} (hn : n + 1 ≤ randMax) : 0 < binSize n := by
  rw [binSize, numBins_eq hn]
  exact Nat.div_pos (hn.trans (Nat.le_succ _)) (Nat.succ_pos n)

/-- The accepted values fill the bins. -/
theorem randomAtMost_singleton {n : ℕ} (hn : n + 1 ≤ randMax) (x : ℕ) :
    randomAtMost n [x] = if x < (n + 1) * binSize n then some (x / binSize n) else none := by
  have hdiv : (n + 1) * binSize n + defect n = numRand := by
    rw [binSize, defect, numBins_eq hn]
    exact Nat.div_add_mod _ _
  have hlt : numRand - defect n = (n + 1) * binSize n := by omega
  simp only [randomAtMost, hlt]
  by_cases hx : x < (n + 1) * binSize n
  · rw [if_neg (by omega), if_pos hx]
  · rw [if_pos (by omega), if_neg hx]

/-- All bins lie within the range of `genrand`. -/
theorem bins_le_numRand {n : ℕ} (hn : n + 1 ≤ randMax) : (n + 1) * binSize n ≤ numRand := by
  rw [binSize, numBins_eq hn]
  exact Nat.mul_div_le numRand (n + 1)

/-! ## The first process dispatched -/

/-- `RUNNABLE` slots have no negative sum of tickets. -/
theorem ticketSum_nonneg {t : PTable} (hpos : t.TicketsPositive) {slots : List Slot}
    (hslots : ∀ i ∈ slots, (t.proc i).state = .runnable) : 0 ≤ t.ticketSum slots := by
  refine List.sum_nonneg fun x hx => ?_
  obtain ⟨i, hi, rfl⟩ := List.mem_map.mp hx
  exact (hpos i (hslots i hi)).1.le

/-- As long as the sums stay in the range of `int`, the first slot that is dispatched is the
one that the draw picks. -/
theorem head_scan (run : Slot → PTable → PTable) {t : PTable} (hpos : t.TicketsPositive)
    (slots : List Slot) {s : ℤ} (c : ℕ) (hs : 0 ≤ s)
    (hmax : s + t.ticketSum (t.runnableIn slots) ≤ intMax) :
    (scan run t (s + c) s slots).1.head? = pick t.weight (t.runnableIn slots) c := by
  induction slots generalizing s c with
  | nil => rfl
  | cons i slots ih =>
    by_cases hrunnable : (t.proc i).state = .runnable
    · have hfilter : t.runnableIn (i :: slots) = i :: t.runnableIn slots := by
        simp [runnableIn, hrunnable]
      have htail : 0 ≤ t.ticketSum (t.runnableIn slots) :=
        ticketSum_nonneg hpos fun j hj => (mem_runnableIn.mp hj).2
      have hi := (hpos i hrunnable).1
      have hweight : (t.weight i : ℤ) = (t.proc i).ticket := Int.toNat_of_nonneg hi.le
      rw [hfilter, ticketSum_cons] at hmax
      have hwrap : wrapInt (s + (t.proc i).ticket) = s + (t.proc i).ticket :=
        wrapInt_of_mem (by omega) (by omega)
      rw [scan, if_neg (not_not.mpr hrunnable), hwrap, hfilter, pick]
      by_cases hc : c ≤ t.weight i
      · rw [if_neg (by omega), if_pos hc]
        rfl
      · rw [if_pos (by omega), if_neg hc]
        have hdraw : s + (c : ℤ) = s + (t.proc i).ticket + ((c - t.weight i : ℕ) : ℤ) := by omega
        rw [hdraw]
        exact ih (c - t.weight i) (by omega) (by omega)
    · have hfilter : t.runnableIn (i :: slots) = t.runnableIn slots := by
        simp [runnableIn, hrunnable]
      rw [hfilter] at hmax ⊢
      rw [scan, if_pos hrunnable]
      exact ih c hs hmax

/-- The weights add up to the total. -/
theorem sum_weight {t : PTable} (hpos : t.TicketsPositive) :
    ((t.runnables.map t.weight).sum : ℤ) = t.ticketSum t.runnables := by
  have hcast : ∀ slots : List Slot, (∀ i ∈ slots, (t.proc i).state = .runnable) →
      ((slots.map t.weight).sum : ℤ) = t.ticketSum slots := by
    intro slots hslots
    induction slots with
    | nil => rfl
    | cons i slots ih =>
      have hi := (hpos i (hslots i List.mem_cons_self)).1
      have hweight : (t.weight i : ℤ) = (t.proc i).ticket := Int.toNat_of_nonneg hi.le
      rw [List.map_cons, List.sum_cons, ticketSum_cons, Nat.cast_add, hweight,
        ih fun j hj => hslots j (List.mem_cons_of_mem i hj)]
  exact hcast t.runnables fun i hi => mem_runnables.mp hi

/-- The number of values with which slot `i` is dispatched first, and of all values that are
accepted. -/
theorem card_dispatchedFirst {t : PTable} (run : Slot → PTable → PTable) (hpos : t.TicketsPositive)
    (htotal : t.ticketSum t.runnables ≤ randMax - 1) {i : Slot}
    (hi : (t.proc i).state = .runnable) :
    ∃ b : ℕ, 0 < b ∧
      (accepted t.lotteryTotalTickets).card = b * ((t.runnables.map t.weight).sum + 1) ∧
      (dispatchedFirst run t i).card =
        b * (t.weight i + if t.runnables.head? = some i then 1 else 0) := by
  have hsum := sum_weight hpos
  generalize hn : (t.runnables.map t.weight).sum = n at hsum
  have hbound : n + 1 ≤ randMax := by omega
  have hnonneg : (0 : ℤ) ≤ n := Int.natCast_nonneg n
  have hlt : (n : ℤ) ≤ intMax := by
    have hrand : (randMax : ℤ) = intMax := by decide
    omega
  have htickets : t.lotteryTotalTickets = n := by
    rw [lotteryTotalTickets_eq, ← hsum, wrapInt_of_mem (by omega) hlt]
  have hhead : ∀ c : ℕ, (pass run t c).1.head? = pick t.weight t.runnables c := by
    intro c
    have hscan := head_scan run hpos (List.finRange nproc) (s := 0) c le_rfl
      (by rw [Int.zero_add]; exact hsum ▸ hlt)
    rwa [Int.zero_add] at hscan
  refine ⟨binSize n, binSize_pos hbound, ?_, ?_⟩
  · rw [accepted, ← Nat.count_eq_card_filter_range, htickets, Nat.mul_comm]
    have haccept : ∀ x, (randomAtMost n [x]).isSome ↔ x < (n + 1) * binSize n ∧ True := by
      intro x
      rw [randomAtMost_singleton hbound]
      split_ifs with hx
      · exact iff_of_true rfl ⟨hx, trivial⟩
      · exact iff_of_false nofun fun h => hx h.1
    simp only [haccept]
    rw [count_lt_and (bins_le_numRand hbound), Nat.count_true]
  · rw [dispatchedFirst, ← Nat.count_eq_card_filter_range]
    have hfirst : ∀ x, (scheduler run t [x]).bind (fun r => r.1.head?) = some i ↔
        x < (n + 1) * binSize n ∧ pick t.weight t.runnables (x / binSize n) = some i := by
      intro x
      rw [scheduler, htickets, randomAtMost_singleton hbound]
      split_ifs with hx
      · rw [Option.map_some, Option.bind_some, hhead]
        exact (and_iff_right hx).symm
      · exact iff_of_false nofun fun h => hx h.1
    have hbins := count_div (P := fun c => pick t.weight t.runnables c = some i)
      (binSize_pos hbound) (n + 1)
    simp only [hfirst]
    rw [count_lt_and (bins_le_numRand hbound), hbins, ← hn,
      count_pick (nodup_runnables t) (mem_runnables.mpr hi)]

/-- The odds of the lottery: every slot is paid out of one ticket more than there are, and the
first `RUNNABLE` slot has it. -/
theorem firstFraction_eq {t : PTable} (run : Slot → PTable → PTable) (hpos : t.TicketsPositive)
    (htotal : t.ticketSum t.runnables ≤ randMax - 1) {i : Slot}
    (hi : (t.proc i).state = .runnable) :
    firstFraction run t i =
      ((t.proc i).ticket + if t.runnables.head? = some i then 1 else 0) /
        (t.ticketSum t.runnables + 1) := by
  obtain ⟨b, hb, haccepted, hfirst⟩ := card_dispatchedFirst run hpos htotal hi
  have hb' : (b : ℚ) ≠ 0 := by exact_mod_cast hb.ne'
  have hweight : (t.weight i : ℚ) = (t.proc i).ticket := by
    have hcast : (t.weight i : ℤ) = (t.proc i).ticket := Int.toNat_of_nonneg (hpos i hi).1.le
    exact_mod_cast congrArg (Int.cast : ℤ → ℚ) hcast
  have htickets := sum_weight hpos
  generalize (t.runnables.map t.weight).sum = n at haccepted htickets
  have hsum : (n : ℚ) = t.ticketSum t.runnables := by
    exact_mod_cast congrArg (Int.cast : ℤ → ℚ) htickets
  rw [firstFraction, haccepted, hfirst]
  push_cast
  rw [mul_div_mul_left _ _ hb', hweight, hsum]

/-- The first slot has its share only if it holds all tickets. -/
theorem eq_of_first_share {ticket total : ℤ} (hticket : 0 < ticket) (hle : ticket ≤ total)
    (hshare : ((ticket + 1 : ℚ)) / (total + 1) = ticket / total) : total = ticket := by
  have htotal : (0 : ℚ) < total := by exact_mod_cast hticket.trans_le hle
  rw [div_eq_div_iff (by linarith) htotal.ne'] at hshare
  have hcross : ((ticket : ℚ) + 1) * total = ticket * (total + 1) := hshare
  have heq : (total : ℚ) = ticket := by linarith
  exact_mod_cast heq

/-- The lottery is proportional exactly when at most one slot is `RUNNABLE`. -/
theorem lottery_proportional {run : Slot → PTable → PTable} {t : PTable}
    (hpos : t.TicketsPositive) (htotal : t.ticketSum t.runnables ≤ randMax - 1) :
    (∀ i, (t.proc i).state = .runnable →
      firstFraction run t i = (t.proc i).ticket / t.ticketSum t.runnables) ↔
      ∀ i j, (t.proc i).state = .runnable → (t.proc j).state = .runnable → i = j := by
  have hmem : ∀ i ∈ t.runnables, (t.proc i).state = .runnable := fun i hi => mem_runnables.mp hi
  constructor
  · intro hproportional i j hi hj
    cases hrunnables : t.runnables with
    | nil =>
      have hi' := mem_runnables.mpr hi
      rw [hrunnables] at hi'
      cases hi'
    | cons first others =>
      have hfirst := hmem first (by rw [hrunnables]; exact List.mem_cons_self)
      have hothers : ∀ k ∈ others, (t.proc k).state = .runnable := fun k hk =>
        hmem k (by rw [hrunnables]; exact List.mem_cons_of_mem first hk)
      have hnonneg := ticketSum_nonneg hpos hothers
      have hshare := hproportional first hfirst
      rw [firstFraction_eq run hpos htotal hfirst, hrunnables, List.head?_cons,
        if_pos rfl] at hshare
      have hall := eq_of_first_share (hpos first hfirst).1 (by rw [ticketSum_cons]; omega) hshare
      -- the others hold no tickets, so there are none
      have hnone : others = [] := by
        cases others with
        | nil => rfl
        | cons k rest =>
          have hk := (hpos k (hothers k List.mem_cons_self)).1
          have hrest : 0 ≤ t.ticketSum rest :=
            ticketSum_nonneg hpos fun l hl => hothers l (List.mem_cons_of_mem k hl)
          rw [ticketSum_cons, ticketSum_cons] at hall
          omega
      have hi' := mem_runnables.mpr hi
      have hj' := mem_runnables.mpr hj
      rw [hrunnables, hnone, List.mem_singleton] at hi' hj'
      rw [hi', hj']
  · intro hunique i hi
    have hone : t.runnables = [i] := by
      refine List.perm_singleton.mp <| (List.perm_ext_iff_of_nodup (nodup_runnables t)
        (List.nodup_singleton i)).mpr fun j => ?_
      rw [mem_runnables, List.mem_singleton]
      constructor
      · intro hj
        exact hunique j i hj hi
      · rintro rfl
        exact hi
    have hticket : (0 : ℚ) < (t.proc i).ticket := by exact_mod_cast (hpos i hi).1
    rw [firstFraction_eq run hpos htotal hi, hone, List.head?_cons, if_pos rfl, ticketSum_cons,
      ticketSum_nil, add_zero, div_self hticket.ne', div_self (by linarith)]

/-- One `RUNNABLE` process with ten tickets. -/
def oneRunnable : PTable :=
  zero.modify 0 fun p => { p with state := .runnable, ticket := 10 }

/-- A single process gets its share. -/
theorem lottery_proportional_oneRunnable :
    firstFraction (fun i t => t.yield i) oneRunnable 0 =
      (oneRunnable.proc 0).ticket / oneRunnable.ticketSum oneRunnable.runnables := by
  have hpos : oneRunnable.TicketsPositive := by
    unfold TicketsPositive
    decide +kernel
  have hunique : ∀ i j, (oneRunnable.proc i).state = .runnable →
      (oneRunnable.proc j).state = .runnable → i = j := by
    decide +kernel
  exact (lottery_proportional hpos (by decide +kernel)).mpr hunique 0 rfl

/-- Of two processes with ten tickets each the first one wins more than half of the draws. -/
theorem lottery_not_proportional :
    ¬ ∀ (run : Slot → PTable → PTable) (t : PTable), t.TicketsPositive →
      t.ticketSum t.runnables ≤ randMax - 1 → ∀ i, (t.proc i).state = .runnable →
      firstFraction run t i = (t.proc i).ticket / t.ticketSum t.runnables := by
  intro hclaim
  have hpos : twoRunnable.TicketsPositive := by
    unfold TicketsPositive
    decide +kernel
  have htotal : twoRunnable.ticketSum twoRunnable.runnables = 20 := by decide +kernel
  have hticket : (twoRunnable.proc 0).ticket = 10 := by decide
  have hhead : twoRunnable.runnables.head? = some 0 := by decide +kernel
  have hbound : twoRunnable.ticketSum twoRunnable.runnables ≤ randMax - 1 := by decide +kernel
  have hhalf := hclaim (fun i t => t.yield i) twoRunnable hpos hbound 0 rfl
  rw [firstFraction_eq _ hpos hbound rfl, htotal, hticket, hhead, if_pos rfl] at hhalf
  norm_num at hhalf

end Xv6.PTable
