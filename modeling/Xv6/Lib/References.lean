import Mathlib

/-!
# Reference counts

Objects have counts, and owners have shares in the objects. The counts are right when each is the
sum of the shares. What an owner does changes its own shares and, by the same amount, the counts.
-/

namespace References

variable {O P V : Type*} [Fintype P]

/-- By how much a count exceeds the sum of the shares. -/
def gap (count : O → ℤ) (owns : P → O → ℤ) (o : O) : ℤ := count o - ∑ p, owns p o

/-- Every count is the sum of the shares of the owners. -/
def Balanced (count : O → ℤ) (owns : P → O → ℤ) : Prop := ∀ o, gap count owns o = 0

/-- A sum over a table in which one entry has changed. -/
theorem sum_update [DecidableEq P] (F : V → ℤ) (table : P → V) (a : P) (v : V) :
    ∑ p, F (Function.update table a v p) = ∑ p, F (table p) + (F v - F (table a)) := by
  have hnew := Finset.add_sum_erase Finset.univ (fun p => F (Function.update table a v p))
    (Finset.mem_univ a)
  have hold := Finset.add_sum_erase Finset.univ (fun p => F (table p)) (Finset.mem_univ a)
  have hrest : ∑ p ∈ Finset.univ.erase a, F (Function.update table a v p) =
      ∑ p ∈ Finset.univ.erase a, F (table p) :=
    Finset.sum_congr rfl fun p hp => by
      rw [Function.update_of_ne (Finset.ne_of_mem_erase hp)]
  rw [hrest, Function.update_self] at hnew
  rw [← hnew, ← hold]
  ring

/-- The gaps when the entry of one owner has changed. -/
theorem gap_update [DecidableEq P] (count : O → ℤ) (F : V → O → ℤ) (table : P → V) (a : P) (v : V)
    (o : O) :
    gap count (fun p => F (Function.update table a v p)) o =
      gap count (fun p => F (table p)) o - (F v o - F (table a) o) := by
  unfold gap
  rw [sum_update fun v => F v o]
  ring

/-- The gap when a count has changed. -/
theorem gap_count (count count' : O → ℤ) (owns : P → O → ℤ) (o : O) :
    gap count' owns o = gap count owns o + (count' o - count o) := by
  unfold gap
  ring

/-- Two kinds of owners. -/
theorem gap_sum {Q : Type*} [Fintype Q] (count : O → ℤ) (owns : P → O → ℤ) (owns' : Q → O → ℤ)
    (o : O) :
    gap count (Sum.elim owns owns') o = gap count owns o - ∑ q, owns' q o := by
  unfold gap
  rw [Fintype.sum_sum_type]
  simp only [Sum.elim_inl, Sum.elim_inr]
  ring

section Balanced

variable {count : O → ℤ} {owns : P → O → ℤ}

/-- The shares of one owner are at most the count. -/
theorem Balanced.le (h : Balanced count owns) (hnonneg : ∀ p o, 0 ≤ owns p o) (a : P) (o : O) :
    owns a o ≤ count o := by
  have hle := Finset.single_le_sum (fun p _ => hnonneg p o) (Finset.mem_univ a)
  have hgap := h o
  unfold gap at hgap
  omega

/-- The shares of two owners are at most the count. -/
theorem Balanced.add_le [DecidableEq P] (h : Balanced count owns) (hnonneg : ∀ p o, 0 ≤ owns p o)
    {a b : P} (hne : a ≠ b) (o : O) : owns a o + owns b o ≤ count o := by
  have hpair := Finset.sum_le_sum_of_subset_of_nonneg (Finset.subset_univ {a, b})
    fun p _ _ => hnonneg p o
  rw [Finset.sum_pair hne] at hpair
  have hgap := h o
  unfold gap at hgap
  omega

end Balanced

end References
