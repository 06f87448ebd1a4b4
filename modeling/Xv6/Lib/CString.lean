import Mathlib

/-!
# Strings in a memory of bytes

A list of bytes lies in a memory from an address on. A C string is read up to its first NUL.
-/

namespace CString

/-- The bytes from an address on. -/
def At (mem : ℕ → UInt8) (p : ℕ) (bytes : List UInt8) : Prop :=
  ∀ k (hk : k < bytes.length), mem (p + k) = bytes[k]

/-- The string at an address, which is to end within the given number of bytes; `none` if it
does not. -/
def stringAt (mem : ℕ → UInt8) (p : ℕ) : ℕ → Option (List UInt8)
  | 0 => none
  | n + 1 => if mem p = 0 then some [] else (stringAt mem (p + 1) n).map (mem p :: ·)

variable {mem : ℕ → UInt8} {p : ℕ} {bytes text : List UInt8}

theorem at_cons {c : UInt8} :
    At mem p (c :: bytes) ↔ mem p = c ∧ At mem (p + 1) bytes := by
  constructor
  · intro h
    refine ⟨h 0 (by simp), fun k hk => ?_⟩
    rw [show p + 1 + k = p + (k + 1) by omega]
    exact h (k + 1) (by simpa using hk)
  · rintro ⟨hhead, htail⟩ k hk
    cases k with
    | zero => simpa using hhead
    | succ k =>
        rw [show p + (k + 1) = p + 1 + k by omega]
        exact htail k (by simpa using hk)

theorem at_append {a b : List UInt8} :
    At mem p (a ++ b) ↔ At mem p a ∧ At mem (p + a.length) b := by
  induction a generalizing p with
  | nil => simp [At]
  | cons c a ih =>
      rw [List.cons_append, at_cons, at_cons, ih, List.length_cons, and_assoc,
        show p + 1 + a.length = p + (a.length + 1) by omega]

theorem at_singleton {c : UInt8} : At mem p [c] ↔ mem p = c := by simp [At]

/-- Bytes at other addresses do not matter. -/
theorem At.congr {mem' : ℕ → UInt8} (h : At mem p bytes)
    (hsame : ∀ k, p ≤ k → k < p + bytes.length → mem' k = mem k) : At mem' p bytes := by
  intro k hk
  rw [hsame (p + k) (by omega) (by omega)]
  exact h k hk

/-- A byte is set behind other ones. -/
theorem At.snoc (h : At mem p bytes) (c : UInt8) :
    At (Function.update mem (p + bytes.length) c) p (bytes ++ [c]) := by
  apply at_append.mpr
  constructor
  · apply h.congr
    intro k _ hk
    exact Function.update_of_ne (by omega) _ _
  · exact at_singleton.mpr (Function.update_self ..)

/-- A byte is set before other ones. -/
theorem At.update_lt {q : ℕ} (h : At mem p bytes) (hq : q < p) (c : UInt8) :
    At (Function.update mem q c) p bytes := by
  apply h.congr
  intro k hk _
  exact Function.update_of_ne (by omega) _ _

theorem At.map_range (h : At mem p bytes) :
    ((List.range bytes.length).map fun k => mem (p + k)) = bytes := by
  apply List.ext_getElem (by simp)
  intro k hk hk'
  simpa using h k hk'

/-- What is read as a string lies in the memory, with the NUL behind it. -/
theorem stringAt_eq_some_iff {n : ℕ} :
    stringAt mem p n = some text ↔ text.length < n ∧ 0 ∉ text ∧ At mem p (text ++ [0]) := by
  induction n generalizing p text with
  | zero => simp [stringAt]
  | succ n ih =>
      rw [stringAt]
      by_cases hnul : mem p = 0
      · rw [if_pos hnul, Option.some.injEq]
        constructor
        · rintro rfl
          exact ⟨by simp, by simp, at_singleton.mpr hnul⟩
        · rintro ⟨-, hmem, hat⟩
          cases text with
          | nil => rfl
          | cons c text =>
              have hc : mem p = c := (at_cons.mp hat).1
              exact absurd (List.mem_cons.mpr (Or.inl (hnul.symm.trans hc))) hmem
      · rw [if_neg hnul]
        cases text with
        | nil =>
            have hat : ¬ At mem p [0] := fun h => hnul (at_singleton.mp h)
            simp [hat]
        | cons c text =>
            have hcons : (stringAt mem (p + 1) n).map (mem p :: ·) = some (c :: text) ↔
                mem p = c ∧ stringAt mem (p + 1) n = some text := by
              cases stringAt mem (p + 1) n <;> simp
            rw [hcons, ih, List.cons_append, at_cons, List.length_cons, List.mem_cons]
            constructor
            · rintro ⟨rfl, hlen, hmem, hat⟩
              exact ⟨by omega, fun h => h.elim (fun h => hnul h.symm) hmem, rfl, hat⟩
            · rintro ⟨hlen, hmem, rfl, hat⟩
              exact ⟨rfl, by omega, fun h => hmem (Or.inr h), hat⟩

/-- A string that lies in the memory is read. -/
theorem stringAt_spec {n : ℕ} (hat : At mem p (text ++ [0])) (hnul : 0 ∉ text)
    (hn : text.length < n) : stringAt mem p n = some text :=
  stringAt_eq_some_iff.mpr ⟨hn, hnul, hat⟩

end CString
