import Mathlib

/-!
# Draws over weights

A draw picks the first element of a list at which the sum of the weights reaches the draw.
Over the draws `1, …, T`, with `T` the sum of all weights, every element is picked as often
as its weight says; the draw 0 goes to the first element as well. The last section counts
over numbers that are divided into bins before they are used as draws.
-/

namespace WeightedDraw

variable {α : Type*} (w : α → ℕ)

/-- The first element of the list at which the sum of the weights reaches the draw. -/
def pick : List α → ℕ → Option α
  | [], _ => none
  | a :: l, c => if c ≤ w a then some a else pick l (c - w a)

variable {w}

/-- Only elements of the list are picked. -/
theorem mem_of_pick {l : List α} {a : α} {c : ℕ} (hpick : pick w l c = some a) : a ∈ l := by
  induction l generalizing c with
  | nil => cases hpick
  | cons b l ih =>
    rw [pick] at hpick
    split_ifs at hpick with hc
    · cases hpick
      exact List.mem_cons_self
    · exact List.mem_cons_of_mem b (ih hpick)

/-- The draw 0 picks the first element. -/
theorem pick_zero (l : List α) : pick w l 0 = l.head? := by
  cases l <;> simp [pick]

variable [DecidableEq α]

/-- Among the draws `1, …, T` as many pick an element as its weight says. -/
theorem count_pick_succ {l : List α} (hnodup : l.Nodup) {a : α} (ha : a ∈ l) :
    Nat.count (fun c => pick w l (c + 1) = some a) (l.map w).sum = w a := by
  induction l with
  | nil => cases ha
  | cons b l ih =>
    obtain ⟨hb, hnodup⟩ := List.nodup_cons.mp hnodup
    -- the draws up to `w b` pick `b`, the others are draws over the rest of the list
    have hfirst : ∀ c < w b, pick w (b :: l) (c + 1) = some b := by
      intro c hc
      simp only [pick, if_pos (show c + 1 ≤ w b from hc)]
    have hrest : ∀ c, pick w (b :: l) (w b + c + 1) = pick w l (c + 1) := by
      intro c
      simp only [pick, if_neg (show ¬ w b + c + 1 ≤ w b by omega)]
      congr 1
      omega
    simp only [List.map_cons, List.sum_cons, Nat.count_add, hrest]
    rcases List.mem_cons.mp ha with rfl | ha
    · have hall : Nat.count (fun c => pick w (a :: l) (c + 1) = some a) (w a) = w a :=
        Nat.count_iff_forall.mpr hfirst
      have hnone : Nat.count (fun c => pick w l (c + 1) = some a) (l.map w).sum = 0 :=
        Nat.count_of_forall_not fun c _ hpick => hb (mem_of_pick hpick)
      rw [hall, hnone, Nat.add_zero]
    · have hne : a ≠ b := fun h => hb (h ▸ ha)
      have hnone : Nat.count (fun c => pick w (b :: l) (c + 1) = some a) (w b) = 0 := by
        refine Nat.count_of_forall_not fun c hc hpick => hne ?_
        rw [hfirst c hc] at hpick
        exact (Option.some.inj hpick).symm
      rw [hnone, Nat.zero_add, ih hnodup ha]

/-- Among the draws `0, …, T` the first element is picked once more. -/
theorem count_pick {l : List α} (hnodup : l.Nodup) {a : α} (ha : a ∈ l) :
    Nat.count (fun c => pick w l c = some a) ((l.map w).sum + 1) =
      w a + if l.head? = some a then 1 else 0 := by
  rw [Nat.count_succ', count_pick_succ hnodup ha, pick_zero]

/-! ## Bins -/

variable {P : ℕ → Prop} [DecidablePred P]

/-- Each of `k` bins of size `b` contributes `b` numbers. -/
theorem count_div {b : ℕ} (hb : 0 < b) (k : ℕ) :
    Nat.count (fun x => P (x / b)) (k * b) = b * Nat.count P k := by
  induction k with
  | zero => simp
  | succ k ih =>
    have hbin : ∀ x < b, (k * b + x) / b = k := by
      intro x hx
      rw [Nat.mul_comm, Nat.mul_add_div hb, Nat.div_eq_of_lt hx, Nat.add_zero]
    rw [Nat.succ_mul, Nat.count_add, ih, Nat.count_succ, Nat.mul_add]
    congr 1
    split_ifs with hk
    · rw [Nat.mul_one, Nat.count_iff_forall]
      intro x hx
      rwa [hbin x hx]
    · rw [Nat.mul_zero]
      refine Nat.count_of_forall_not fun x hx => ?_
      rwa [hbin x hx]

/-- Counting below a bound. -/
theorem count_lt_and {m n : ℕ} (hle : m ≤ n) :
    Nat.count (fun x => x < m ∧ P x) n = Nat.count P m := by
  rw [Nat.count_eq_card_filter_range, Nat.count_eq_card_filter_range]
  congr 1
  ext x
  simp only [Finset.mem_filter, Finset.mem_range]
  constructor
  · rintro ⟨-, hx⟩
    exact hx
  · rintro ⟨hx, hP⟩
    exact ⟨hx.trans_le hle, hx, hP⟩

end WeightedDraw
