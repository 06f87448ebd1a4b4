import Mathlib

/-!
# Ring buffers with wrapping counters

A circular buffer of `cap` slots whose two counters run modulo `modulus` and are reduced
modulo `cap` only when a slot is accessed. The buffer is described by the whole history of
the values put in and of the values taken out: the counters are the lengths of the
histories, and the slots hold what is in the one and not yet in the other.
-/

variable {α : Type*} {cap modulus : ℕ}

/-- A buffer of `cap` slots with counters below `modulus`. -/
structure RingBuffer (α : Type*) (cap modulus : ℕ) where
  /-- The slots. -/
  data : Fin cap → α
  /-- Number of values taken, modulo `modulus`. -/
  head : ℕ
  /-- Number of values put in, modulo `modulus`. -/
  tail : ℕ

namespace RingBuffer

/-- Counters of numbers at most `cap` apart agree only if the numbers do. -/
theorem mod_modulus_inj (hcap : cap < modulus) {j k : ℕ} (hle : j ≤ k) (hspan : k ≤ j + cap)
    (hmod : j % modulus = k % modulus) : j = k := by
  have hdvd : modulus ∣ k - j := (Nat.modEq_iff_dvd' hle).mp hmod
  by_contra hne
  have hle' := Nat.le_of_dvd (by omega) hdvd
  omega

variable [NeZero cap] {r : RingBuffer α cap modulus} {stored taken : List α}

/-- The counters agree. -/
def Empty (r : RingBuffer α cap modulus) : Prop := r.head = r.tail

/-- The counters are `cap` apart. -/
def Full (r : RingBuffer α cap modulus) : Prop := r.tail = (r.head + cap) % modulus

/-- Put a value in. -/
def push (r : RingBuffer α cap modulus) (x : α) : RingBuffer α cap modulus :=
  { r with
    data := fun j => if j = Fin.ofNat cap r.tail then x else r.data j
    tail := (r.tail + 1) % modulus }

/-- The value that is taken next. -/
def front (r : RingBuffer α cap modulus) : α := r.data (Fin.ofNat cap r.head)

/-- Take a value out. -/
def pop (r : RingBuffer α cap modulus) : RingBuffer α cap modulus :=
  { r with head := (r.head + 1) % modulus }

/-- Take the value put in last back. -/
def unpush (r : RingBuffer α cap modulus) : RingBuffer α cap modulus :=
  { r with tail := (r.tail + (modulus - 1)) % modulus }

/-- The value that was put in last. -/
def back (r : RingBuffer α cap modulus) : α := r.data (Fin.ofNat cap r.unpush.tail)

/-- The buffer holds what has been stored and not taken yet. -/
structure Models (r : RingBuffer α cap modulus) (stored taken : List α) : Prop where
  /-- The values taken are the first ones stored. -/
  isPrefix : taken <+: stored
  /-- No more values are outstanding than there are slots. -/
  outstanding : stored.length ≤ taken.length + cap
  /-- The counter of the values taken. -/
  head : r.head = taken.length % modulus
  /-- The counter of the values stored. -/
  tail : r.tail = stored.length % modulus
  /-- The outstanding values are in their slots. -/
  slot : ∀ k, taken.length ≤ k → (hk : k < stored.length) → r.data (Fin.ofNat cap k) = stored[k]

/-- A buffer whose counters are 0 holds nothing. -/
theorem Models.start (hhead : r.head = 0) (htail : r.tail = 0) : r.Models [] [] where
  isPrefix := List.prefix_rfl
  outstanding := by simp
  head := by simp [hhead]
  tail := by simp [htail]
  slot := fun k _ hk => by simp at hk

/-- A slot depends only on the counter modulo `modulus`. -/
theorem ofNat_mod_modulus (hdvd : cap ∣ modulus) (k : ℕ) :
    Fin.ofNat cap (k % modulus) = Fin.ofNat cap k := by
  apply Fin.ext
  simp [Fin.ofNat, Nat.mod_mod_of_dvd k hdvd]

/-- Two outstanding positions less than `cap` apart have different slots. -/
theorem ofNat_ne_of_lt {j k : ℕ} (hlt : j < k) (hspan : k < j + cap) :
    Fin.ofNat cap j ≠ Fin.ofNat cap k := by
  intro heq
  have hmod : j % cap = k % cap := by simpa [Fin.ofNat] using congrArg Fin.val heq
  have hdvd : cap ∣ k - j := (Nat.modEq_iff_dvd' hlt.le).mp hmod
  have hle := Nat.le_of_dvd (by omega) hdvd
  omega

/-- The buffer is empty exactly when everything stored has been taken. -/
theorem Models.empty_iff (hcap : cap < modulus) (h : r.Models stored taken) :
    r.Empty ↔ stored.length = taken.length := by
  have hle := h.isPrefix.length_le
  have hspan := h.outstanding
  unfold Empty
  rw [h.head, h.tail]
  constructor
  · intro heq
    exact (mod_modulus_inj hcap hle hspan heq).symm
  · intro heq
    rw [heq]

/-- The buffer is full exactly when `cap` values are outstanding. -/
theorem Models.full_iff (hcap : cap < modulus) (h : r.Models stored taken) :
    r.Full ↔ stored.length = taken.length + cap := by
  have hle := h.isPrefix.length_le
  have hspan := h.outstanding
  unfold Full
  rw [h.head, h.tail, Nat.mod_add_mod]
  constructor
  · intro heq
    exact mod_modulus_inj hcap hspan (by omega) heq
  · intro heq
    rw [heq]

/-- Storing a value in a buffer that is not full. -/
theorem Models.push (hdvd : cap ∣ modulus) (hcap : cap < modulus) (h : r.Models stored taken)
    (hroom : ¬ r.Full) (x : α) : (r.push x).Models (stored ++ [x]) taken := by
  have hspan := h.outstanding
  have hlt : stored.length < taken.length + cap := by
    rw [h.full_iff hcap] at hroom
    omega
  have htail : Fin.ofNat cap r.tail = Fin.ofNat cap stored.length := by
    rw [h.tail, ofNat_mod_modulus hdvd]
  refine ⟨h.isPrefix.trans (List.prefix_append _ _), ?_, h.head, ?_, ?_⟩
  · simp only [List.length_append, List.length_singleton]
    omega
  · simp [RingBuffer.push, h.tail, Nat.add_mod]
  · intro k hk hklt
    simp only [List.length_append, List.length_singleton] at hklt
    simp only [RingBuffer.push, htail]
    rcases Nat.lt_or_eq_of_le (Nat.le_of_lt_succ hklt) with hold | hnew
    · rw [if_neg (ofNat_ne_of_lt hold (by omega)), h.slot k hk hold, List.getElem_append_left hold]
    · rw [if_pos (by rw [hnew])]
      simp [hnew]

/-- Taking a value from a buffer that is not empty: it is the oldest one outstanding. -/
theorem Models.pop (hdvd : cap ∣ modulus) (hcap : cap < modulus) (h : r.Models stored taken)
    (hsome : ¬ r.Empty) : r.pop.Models stored (taken ++ [r.front]) := by
  have hle := h.isPrefix.length_le
  have hspan := h.outstanding
  have hlt : taken.length < stored.length := by
    rw [h.empty_iff hcap] at hsome
    omega
  have hfront : r.front = stored[taken.length] := by
    unfold front
    rw [h.head, ofNat_mod_modulus hdvd, h.slot _ le_rfl hlt]
  have htake : taken = stored.take taken.length := List.prefix_iff_eq_take.mp h.isPrefix
  refine ⟨?_, ?_, ?_, h.tail, ?_⟩
  · rw [List.prefix_iff_eq_take, List.length_append, List.length_singleton,
      List.take_succ_eq_append_getElem hlt, ← htake, hfront]
  · simp only [List.length_append, List.length_singleton]
    omega
  · simp [RingBuffer.pop, h.head, Nat.add_mod]
  · intro k hk hklt
    simp only [List.length_append, List.length_singleton] at hk
    exact h.slot k (by omega) hklt

/-- One step back from a counter. -/
theorem succ_mod_sub_one (hpos : 0 < modulus) (k : ℕ) :
    ((k + 1) % modulus + (modulus - 1)) % modulus = k % modulus := by
  rw [Nat.mod_add_mod, show k + 1 + (modulus - 1) = k + modulus by omega, Nat.add_mod_right]

/-- Taking the last value back that has been stored and not taken. -/
theorem Models.unpush {x : α} (hpos : 0 < modulus) (h : r.Models (stored ++ [x]) taken)
    (hleft : taken.length ≤ stored.length) : r.unpush.Models stored taken := by
  have hspan := h.outstanding
  have htail := h.tail
  rw [List.length_append, List.length_singleton] at hspan htail
  refine ⟨?_, by omega, h.head, ?_, fun k hk hklt => ?_⟩
  · exact List.prefix_of_prefix_length_le h.isPrefix (List.prefix_append _ _) hleft
  · rw [RingBuffer.unpush, htail, succ_mod_sub_one hpos]
  · have hslot := h.slot k hk (by rw [List.length_append]; omega)
    rwa [List.getElem_append_left hklt] at hslot

/-- The value put in last is the last one stored. -/
theorem Models.back_eq {x : α} (hdvd : cap ∣ modulus) (hpos : 0 < modulus)
    (h : r.Models (stored ++ [x]) taken) (hleft : taken.length ≤ stored.length) : r.back = x := by
  have htail := h.tail
  rw [List.length_append, List.length_singleton] at htail
  have hslot := h.slot stored.length hleft (by simp)
  rw [List.getElem_concat_length rfl] at hslot
  rw [back, RingBuffer.unpush, htail, succ_mod_sub_one hpos, ofNat_mod_modulus hdvd, hslot]

end RingBuffer
