import Mathlib

/-!
# Spans that tile an interval

A span is an interval of addresses. Spans tile an interval when each address of it lies in
exactly one of them and no other address in any. Counting the spans at each address makes the
changes of a tiling additive: spans may be joined, split, reordered and added at the end, and
that two spans of a tiling are disjoint follows from the count.
-/

/-- The addresses from `start` on, `len` of them. -/
structure Span where
  /-- The first address. -/
  start : ℕ
  /-- Number of addresses. -/
  len : ℕ
  deriving DecidableEq

namespace Span

/-- The address after the last. -/
def stop (a : Span) : ℕ := a.start + a.len

/-- The address is one of the span. -/
def Has (a : Span) (x : ℕ) : Prop := a.start ≤ x ∧ x < a.stop

instance (a : Span) (x : ℕ) : Decidable (a.Has x) := inferInstanceAs (Decidable (_ ∧ _))

/-- No address is in both, since one span ends before the other begins. -/
def Disjoint (a b : Span) : Prop := a.stop ≤ b.start ∨ b.stop ≤ a.start

/-- There is an address between the two spans. -/
def Apart (a b : Span) : Prop := a.stop < b.start

variable {a b c : Span} {as bs : List Span} {lo hi n : ℕ}

theorem start_le_stop (a : Span) : a.start ≤ a.stop := Nat.le_add_right _ _

theorem Apart.start_lt (h : a.Apart b) : a.start < b.start :=
  a.start_le_stop.trans_lt h

theorem Apart.trans (hab : a.Apart b) (hbc : b.Apart c) : a.Apart c :=
  lt_trans hab hbc.start_lt

/-- Each address of the interval is in exactly one span, and no other address is in any. -/
def Tiles (as : List Span) (lo hi : ℕ) : Prop :=
  ∀ x, as.countP (fun a => a.Has x) = if lo ≤ x ∧ x < hi then 1 else 0

/-- One span more counts where it is. -/
theorem countP_cons_has (a : Span) (as : List Span) (x : ℕ) :
    (a :: as).countP (fun a => a.Has x) =
      as.countP (fun a => a.Has x) + if a.start ≤ x ∧ x < a.start + a.len then 1 else 0 := by
  have hiff : a.Has x ↔ a.start ≤ x ∧ x < a.start + a.len := Iff.rfl
  by_cases hx : a.Has x
  · rw [List.countP_cons_of_pos (by simpa using hx), if_pos (hiff.mp hx)]
  · rw [List.countP_cons_of_neg (by simpa using hx), if_neg (mt hiff.mpr hx), Nat.add_zero]

/-- No spans tile an empty interval. -/
theorem Tiles.nil (lo : ℕ) : Tiles [] lo lo := by
  intro x
  rw [List.countP_nil, if_neg (by omega)]

/-- The order of the spans does not matter. -/
theorem Tiles.perm (h : Tiles as lo hi) (hperm : as.Perm bs) : Tiles bs lo hi := by
  intro x
  rw [← hperm.countP_eq]
  exact h x

/-- Only how often each span occurs matters. -/
theorem Tiles.congr (h : Tiles as lo hi) (hcount : ∀ c, as.count c = bs.count c) :
    Tiles bs lo hi :=
  h.perm (List.perm_iff_count.mpr hcount)

/-- An empty span does not count. -/
theorem tiles_cons_empty (start : ℕ) : Tiles (⟨start, 0⟩ :: as) lo hi ↔ Tiles as lo hi := by
  have hempty : ∀ x, ¬ Has ⟨start, 0⟩ x := by
    intro x hx
    simp only [Has, stop] at hx
    omega
  unfold Tiles
  apply forall_congr'
  intro x
  rw [List.countP_cons_of_neg (by simp [hempty])]

/-- Two spans that touch count as the one they make up. -/
theorem countP_join (start m n x : ℕ) :
    (⟨start, m⟩ :: ⟨start + m, n⟩ :: as).countP (fun a => a.Has x) =
      (⟨start, m + n⟩ :: as).countP (fun a => a.Has x) := by
  rw [countP_cons_has, countP_cons_has, countP_cons_has]
  dsimp only
  split_ifs <;> omega

/-- Two spans that touch are joined. -/
theorem Tiles.join (h : Tiles (a :: b :: as) lo hi) (htouch : a.stop = b.start) :
    Tiles (⟨a.start, a.len + b.len⟩ :: as) lo hi := by
  intro x
  rw [← countP_join, ← h x]
  obtain ⟨start, m⟩ := a
  obtain ⟨start', n⟩ := b
  obtain rfl : start + m = start' := htouch
  rfl

/-- A span is split. -/
theorem Tiles.split (h : Tiles (a :: as) lo hi) (hn : n ≤ a.len) :
    Tiles (⟨a.start, a.len - n⟩ :: ⟨a.start + (a.len - n), n⟩ :: as) lo hi := by
  intro x
  rw [countP_join, Nat.sub_add_cancel hn]
  exact h x

/-- A span is added at the end. -/
theorem Tiles.extend (h : Tiles as lo hi) (hle : lo ≤ hi) (n : ℕ) :
    Tiles (⟨hi, n⟩ :: as) lo (hi + n) := by
  intro x
  rw [countP_cons_has, h x]
  dsimp only
  split_ifs <;> omega

/-- The addresses in the spans are those of the interval. -/
theorem Tiles.mem_iff (h : Tiles as lo hi) (x : ℕ) :
    (∃ a ∈ as, a.Has x) ↔ lo ≤ x ∧ x < hi := by
  have hcount := h x
  constructor
  · rintro ⟨a, ha, hx⟩
    by_contra hno
    rw [if_neg hno, List.countP_eq_zero] at hcount
    exact hcount a ha (by simpa using hx)
  · intro hx
    rw [if_pos hx] at hcount
    obtain ⟨a, ha, hax⟩ := List.countP_pos_iff.mp (Nat.lt_of_lt_of_eq Nat.zero_lt_one hcount.symm)
    exact ⟨a, ha, by simpa using hax⟩

/-- A span of the tiling that is not empty lies in the interval. -/
theorem Tiles.within (h : Tiles as lo hi) (ha : a ∈ as) (hpos : 0 < a.len) :
    lo ≤ a.start ∧ a.stop ≤ hi := by
  have hfirst := (h.mem_iff a.start).mp ⟨a, ha, by simp only [Has, stop]; omega⟩
  have hlast := (h.mem_iff (a.stop - 1)).mp ⟨a, ha, by simp only [Has, stop]; omega⟩
  exact ⟨hfirst.1, by omega⟩

/-- Two spans of the tiling that are not empty are disjoint. -/
theorem Tiles.disjoint (h : Tiles as lo hi) (hsub : [a, b].Sublist as) (ha : 0 < a.len)
    (hb : 0 < b.len) : a.Disjoint b := by
  by_contra hmeet
  -- the later of the two first addresses is in both
  have hboth : ∃ x, a.Has x ∧ b.Has x := by
    refine ⟨max a.start b.start, ?_⟩
    simp only [Disjoint, Has, stop] at *
    omega
  obtain ⟨x, hxa, hxb⟩ := hboth
  have hle : [a, b].countP (fun c => c.Has x) ≤ as.countP (fun c => c.Has x) := hsub.countP_le
  have htwo : [a, b].countP (fun c => c.Has x) = 2 := by simp [hxa, hxb]
  rw [htwo, h x] at hle
  split_ifs at hle <;> omega

/-- A span of the tiling is disjoint from the others. -/
theorem Tiles.disjoint_of_mem (h : Tiles (a :: as) lo hi) (hmem : b ∈ as) (ha : 0 < a.len)
    (hb : 0 < b.len) : a.Disjoint b :=
  h.disjoint ((List.singleton_sublist.mpr hmem).cons_cons a) ha hb

/-- Two spans of the tiling that are not empty have different first addresses. -/
theorem Tiles.start_ne (h : Tiles (a :: as) lo hi) (hmem : b ∈ as) (ha : 0 < a.len)
    (hb : 0 < b.len) : b.start ≠ a.start := by
  intro heq
  rcases h.disjoint_of_mem hmem ha hb with hle | hle <;> simp only [stop] at hle <;> omega

/-- The spans of a tiling are pairwise disjoint. -/
theorem Tiles.pairwise (h : Tiles as lo hi) (hpos : ∀ a ∈ as, 0 < a.len) :
    as.Pairwise Disjoint := by
  rw [List.pairwise_iff_forall_sublist]
  intro a b hsub
  exact h.disjoint hsub (hpos a (hsub.subset (by simp))) (hpos b (hsub.subset (by simp)))

end Span
