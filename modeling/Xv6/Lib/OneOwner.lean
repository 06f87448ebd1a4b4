import Mathlib

/-!
# Blocks with one owner

Owners hold addresses, and 0 is no address. No two owners hold the same address, every
address is one that may be handed out, and the used ones among these are those that are held.
-/

variable {Owner : Type*}

/-- The addresses of the owners, the marks of the used ones, and the range that may be
handed out. -/
structure OneOwner (addr : Owner → ℕ) (used : ℕ → Bool) (range : ℕ → Prop) : Prop where
  /-- 0 is no address. -/
  zero : ¬ range 0
  /-- Addresses that are held lie in the range. -/
  held : ∀ k, addr k ≠ 0 → range (addr k)
  /-- No two owners hold the same address. -/
  inj : ∀ k k', addr k = addr k' → addr k ≠ 0 → k = k'
  /-- An address of the range is marked just when it is held. -/
  used_iff : ∀ b, range b → (used b = true ↔ ∃ k, addr k = b)

namespace OneOwner

variable {addr : Owner → ℕ} {used : ℕ → Bool} {range : ℕ → Prop} {k : Owner} {b : ℕ}

/-- An address that is not marked is held by nobody. -/
theorem ne_of_free (h : OneOwner addr used range) (hrange : range b) (hfree : used b = false)
    (k : Owner) : addr k ≠ b := by
  intro hk
  have hused := (h.used_iff b hrange).mpr ⟨k, hk⟩
  simp [hfree] at hused

/-- An address of the range is not 0. -/
theorem ne_zero (h : OneOwner addr used range) (hrange : range b) : b ≠ 0 := by
  rintro rfl
  exact h.zero hrange

/-- What an owner holds is marked. -/
theorem used_of_held (h : OneOwner addr used range) (hne : addr k ≠ 0) : used (addr k) = true :=
  (h.used_iff _ (h.held k hne)).mpr ⟨k, rfl⟩

variable [DecidableEq Owner]

/-- Handing out a free address to an owner that holds none. -/
theorem assign (h : OneOwner addr used range) (hnone : addr k = 0) (hrange : range b)
    (hfree : used b = false) :
    OneOwner (Function.update addr k b) (Function.update used b true) range := by
  have hother := h.ne_of_free hrange hfree
  refine ⟨h.zero, fun k' hk' => ?_, fun k₁ k₂ heq hne => ?_, fun b' hb' => ?_⟩
  · by_cases heq : k' = k
    · simpa [heq] using hrange
    · rw [Function.update_of_ne heq] at hk' ⊢
      exact h.held k' hk'
  · by_cases h₁ : k₁ = k <;> by_cases h₂ : k₂ = k
    · rw [h₁, h₂]
    · rw [h₁, Function.update_self, Function.update_of_ne h₂] at heq
      exact absurd heq.symm (hother k₂)
    · rw [h₂, Function.update_self, Function.update_of_ne h₁] at heq
      exact absurd heq (hother k₁)
    · rw [Function.update_of_ne h₁] at heq hne
      rw [Function.update_of_ne h₂] at heq
      exact h.inj k₁ k₂ heq hne
  · by_cases heq : b' = b
    · subst heq
      simp only [Function.update_self, true_iff]
      exact ⟨k, Function.update_self ..⟩
    · rw [Function.update_of_ne heq, h.used_iff b' hb']
      have hb0 := h.ne_zero hb'
      constructor
      · rintro ⟨k', hk'⟩
        have hkk : k' ≠ k := by
          rintro rfl
          exact hb0 (by rw [← hk', hnone])
        exact ⟨k', by rw [Function.update_of_ne hkk, hk']⟩
      · rintro ⟨k', hk'⟩
        have hkk : k' ≠ k := by
          rintro rfl
          exact heq (by rw [← hk', Function.update_self])
        exact ⟨k', by rwa [Function.update_of_ne hkk] at hk'⟩

/-- Taking an address back from its owner. -/
theorem release (h : OneOwner addr used range) (hne : addr k ≠ 0) :
    OneOwner (Function.update addr k 0) (Function.update used (addr k) false) range := by
  have hkeep {k' : Owner} (hk' : Function.update addr k 0 k' ≠ 0) :
      k' ≠ k ∧ Function.update addr k 0 k' = addr k' := by
    have hkk : k' ≠ k := by
      rintro rfl
      simp at hk'
    exact ⟨hkk, Function.update_of_ne hkk ..⟩
  refine ⟨h.zero, fun k' hk' => ?_, fun k₁ k₂ heq hne₁ => ?_, fun b' hb' => ?_⟩
  · obtain ⟨-, hsame⟩ := hkeep hk'
    rw [hsame] at hk' ⊢
    exact h.held k' hk'
  · obtain ⟨-, hsame₁⟩ := hkeep hne₁
    obtain ⟨-, hsame₂⟩ := hkeep (heq ▸ hne₁)
    rw [hsame₁, hsame₂] at heq
    rw [hsame₁] at hne₁
    exact h.inj k₁ k₂ heq hne₁
  · have hb0 := h.ne_zero hb'
    by_cases heq : b' = addr k
    · subst heq
      simp only [Function.update_self, Bool.false_eq_true, false_iff]
      rintro ⟨k', hk'⟩
      obtain ⟨hkk, hsame⟩ := hkeep (hk' ▸ hb0)
      exact hkk (h.inj k' k (by rw [← hsame, hk']) (by rw [← hsame, hk']; exact hb0))
    · rw [Function.update_of_ne heq, h.used_iff b' hb']
      constructor
      · rintro ⟨k', hk'⟩
        have hkk : k' ≠ k := by
          rintro rfl
          exact heq hk'.symm
        exact ⟨k', by rw [Function.update_of_ne hkk, hk']⟩
      · rintro ⟨k', hk'⟩
        obtain ⟨-, hsame⟩ := hkeep (hk' ▸ hb0)
        exact ⟨k', hsame ▸ hk'⟩

end OneOwner
