import Mathlib

/-!
# Finite maps in tables of slots

A table is a list of slots, each empty or holding a key and a value. A table in which no key
is in two slots is a finite map: filling an empty slot, or one more at the end, adds a binding,
and emptying a slot removes one.
-/

/-- A table of slots. -/
abbrev SlotMap (κ ν : Type) := List (Option (κ × ν))

namespace SlotMap

variable {κ ν : Type} {l : SlotMap κ ν} {k k' : κ} {v w : ν} {i j : ℕ} {e : Option (κ × ν)}

/-- No key is in two slots. -/
def Distinct (l : SlotMap κ ν) : Prop :=
  ∀ ⦃i j : ℕ⦄ ⦃k : κ⦄ ⦃v w : ν⦄, l[i]? = some (some (k, v)) → l[j]? = some (some (k, w)) → i = j

/-- The slot is empty, or the one behind the last. -/
def Free (l : SlotMap κ ν) (i : ℕ) : Prop := l[i]? = some none ∨ i = l.length

/-- The first empty slot, or the one behind the last. -/
def firstFree (l : SlotMap κ ν) : ℕ := l.findIdx (·.isNone)

/-- A table after a slot of it, or the one behind the last, has been set. -/
def put (l : SlotMap κ ν) (i : ℕ) (e : Option (κ × ν)) : SlotMap κ ν :=
  if i < l.length then l.set i e else l ++ [e]

theorem free_firstFree (l : SlotMap κ ν) : Free l (firstFree l) := by
  by_cases hlt : firstFree l < l.length
  · left
    have hnone := List.findIdx_getElem (w := hlt)
    rw [List.getElem?_eq_getElem hlt]
    exact congrArg some (Option.isNone_iff_eq_none.mp hnone)
  · right
    exact le_antisymm List.findIdx_le_length (Nat.le_of_not_lt hlt)

theorem Free.le (h : Free l i) : i ≤ l.length := by
  rcases h with h | rfl
  · exact (List.getElem?_eq_some_iff.mp h).1.le
  · exact le_rfl

/-- A free slot holds no binding. -/
theorem Free.ne_some (h : Free l i) : l[i]? ≠ some (some (k, v)) := by
  rcases h with h | rfl
  · simp [h]
  · simp

theorem getElem?_put (hi : i ≤ l.length) : (put l i e)[j]? = if j = i then some e else l[j]? := by
  unfold put
  by_cases hlt : i < l.length
  · rw [if_pos hlt, List.getElem?_set]
    by_cases hij : i = j
    · rw [if_pos hij, if_pos (hij ▸ hlt), if_pos hij.symm]
    · rw [if_neg hij, if_neg (Ne.symm hij)]
  · obtain rfl : i = l.length := by omega
    rw [if_neg hlt, List.getElem?_append]
    by_cases hj : j < l.length
    · rw [if_pos hj, if_neg (by omega)]
    · rw [if_neg hj]
      by_cases hij : j = l.length
      · simp [hij]
      · have hlen : [e].length ≤ j - l.length := by
          rw [List.length_singleton]
          omega
        rw [if_neg hij, List.getElem?_eq_none hlen, List.getElem?_eq_none (by omega)]

/-- Emptying a slot. -/
theorem Distinct.put_none (h : Distinct l) (hi : i ≤ l.length) : Distinct (put l i none) := by
  intro a b k v w ha hb
  rw [getElem?_put hi] at ha hb
  split_ifs at ha hb
  · simp at ha
  · simp at ha
  · simp at hb
  · exact h ha hb

variable [DecidableEq κ]

/-- The value of a key and the first slot that holds it. -/
def find (k : κ) : SlotMap κ ν → Option (ν × ℕ)
  | [] => none
  | none :: l => (find k l).map fun r => (r.1, r.2 + 1)
  | some (k', v) :: l =>
    if k' = k then some (v, 0) else (find k l).map fun r => (r.1, r.2 + 1)

theorem find_none_cons : find k (none :: l) = (find k l).map fun r => (r.1, r.2 + 1) := rfl

theorem find_some_cons : find k (some (k', v) :: l) =
    if k' = k then some (v, 0) else (find k l).map fun r => (r.1, r.2 + 1) := rfl

theorem getElem?_of_find (h : find k l = some (v, i)) : l[i]? = some (some (k, v)) := by
  induction l generalizing i with
  | nil => simp [find] at h
  | cons e l ih =>
    have htail (hmap : (find k l).map (fun r => (r.1, r.2 + 1)) = some (v, i)) :
        (e :: l)[i]? = some (some (k, v)) := by
      obtain ⟨⟨v', i'⟩, hfind, heq⟩ := Option.map_eq_some_iff.mp hmap
      obtain ⟨rfl, rfl⟩ := Prod.mk.inj heq
      rw [List.getElem?_cons_succ]
      exact ih hfind
    rcases e with _ | ⟨k', v'⟩
    · exact htail h
    · rw [find_some_cons] at h
      split_ifs at h with hk
      · obtain ⟨rfl, rfl⟩ := Prod.mk.inj (Option.some.inj h)
        rw [hk]
        rfl
      · exact htail h

theorem find_eq_none_iff : find k l = none ↔ ∀ (i : ℕ) v, l[i]? ≠ some (some (k, v)) := by
  constructor
  · intro h
    induction l with
    | nil => simp
    | cons e l ih =>
      have htail (hmap : (find k l).map (fun r => (r.1, r.2 + 1)) = none)
          (hhead : ∀ v, e ≠ some (k, v)) (i : ℕ) (v : ν) : (e :: l)[i]? ≠ some (some (k, v)) := by
        cases i with
        | zero => simpa using hhead v
        | succ i => simpa using ih (Option.map_eq_none_iff.mp hmap) i v
      rcases e with _ | ⟨k', v'⟩
      · exact htail h (by simp)
      · rw [find_some_cons] at h
        split_ifs at h with hk
        exact htail h (by simp [hk])
  · intro h
    cases hfind : find k l with
    | none => rfl
    | some r => exact absurd (getElem?_of_find hfind) (h r.2 r.1)

/-- In a finite map, the binding of a key is the slot that holds the key. -/
theorem Distinct.find_eq_some_iff (h : Distinct l) :
    find k l = some (v, i) ↔ l[i]? = some (some (k, v)) := by
  refine ⟨getElem?_of_find, fun hslot => ?_⟩
  cases hfind : find k l with
  | none => exact absurd hslot (find_eq_none_iff.mp hfind i v)
  | some r =>
    obtain ⟨w, j⟩ := r
    have hslot' := getElem?_of_find hfind
    obtain rfl := h hslot hslot'
    rw [hslot] at hslot'
    simp only [Option.some.injEq, Prod.mk.injEq, true_and] at hslot'
    rw [hslot']

/-- Filling a free slot with a new key. -/
theorem Distinct.put_some (h : Distinct l) (hi : Free l i) (hnew : find k l = none) (v : ν) :
    Distinct (put l i (some (k, v))) := by
  have hnone := find_eq_none_iff.mp hnew
  intro a b k' v' w' ha hb
  rw [getElem?_put hi.le] at ha hb
  split_ifs at ha hb with hai hbi hbi
  · rw [hai, hbi]
  · obtain ⟨rfl, rfl⟩ : k = k' ∧ v = v' := by simpa using ha
    exact absurd hb (hnone _ _)
  · obtain ⟨rfl, rfl⟩ : k = k' ∧ v = w' := by simpa using hb
    exact absurd ha (hnone _ _)
  · exact h ha hb

/-- Filling a free slot with a new key adds its binding and no other. -/
theorem Distinct.find_put_some (h : Distinct l) (hi : Free l i) (hnew : find k l = none) (v : ν) :
    find k' (put l i (some (k, v))) = if k' = k then some (v, i) else find k' l := by
  have hput := h.put_some hi hnew v
  have hslot := getElem?_put (e := some (k, v)) (j := i) hi.le
  rw [if_pos rfl] at hslot
  split_ifs with hk
  · rw [hk]
    exact hput.find_eq_some_iff.mpr hslot
  · ext1 r
    obtain ⟨w, j⟩ := r
    rw [hput.find_eq_some_iff, h.find_eq_some_iff, getElem?_put hi.le]
    split_ifs with hj
    · rw [hj]
      simp [Ne.symm hk, hi.ne_some]
    · rfl

/-- Emptying a slot removes the binding that it holds and no other. -/
theorem Distinct.find_put_none (h : Distinct l) (hi : i ≤ l.length) :
    find k (put l i none) = (find k l).filter fun r => r.2 ≠ i := by
  ext1 r
  obtain ⟨w, j⟩ := r
  rw [(h.put_none hi).find_eq_some_iff, Option.filter_eq_some_iff, h.find_eq_some_iff,
    getElem?_put hi]
  split_ifs with hj <;> simp [hj]

/-- The finite map of a table. -/
def values (l : SlotMap κ ν) (k : κ) : Option ν := (find k l).map Prod.fst

theorem Distinct.values_put_some (h : Distinct l) (hi : Free l i) (hnew : find k l = none)
    (v : ν) : values (put l i (some (k, v))) = Function.update (values l) k (some v) := by
  funext k'
  rw [values, h.find_put_some hi hnew, Function.update_apply]
  split_ifs
  · rfl
  · rfl

theorem Distinct.values_put_none (h : Distinct l) (hfind : find k l = some (v, i)) :
    values (put l i none) = Function.update (values l) k none := by
  have hslot := getElem?_of_find hfind
  have hi : i ≤ l.length := (List.getElem?_eq_some_iff.mp hslot).1.le
  funext k'
  rw [values, h.find_put_none hi, Function.update_apply]
  split_ifs with hk
  · rw [hk, hfind]
    simp
  · rw [values]
    cases hother : find k' l with
    | none => rfl
    | some r =>
      have hne : r.2 ≠ i := by
        intro heq
        have hsame := getElem?_of_find hother
        rw [heq, hslot] at hsame
        have hpair := Option.some.inj (Option.some.inj hsame)
        exact hk (congrArg Prod.fst hpair).symm
      rw [Option.filter_some, if_pos (by simpa using hne)]

/-- In a map that is filled from the front, the first pair with the key counts. -/
theorem values_filled (es : List (κ × ν)) (n : ℕ) (k : κ) :
    values (es.map some ++ List.replicate n none) k = (es.find? fun e => e.1 = k).map Prod.snd := by
  unfold values
  induction es with
  | nil =>
    have hnone : find k (List.replicate n (none : Option (κ × ν))) = none :=
      find_eq_none_iff.mpr fun i v hslot => by simp [List.getElem?_replicate] at hslot
    rw [List.map_nil, List.nil_append, hnone]
    rfl
  | cons e es ih =>
    rw [List.map_cons, List.cons_append, find_some_cons, List.find?_cons]
    by_cases hk : e.1 = k
    · simp [hk]
    · have hhead : decide (e.1 = k) = false := decide_eq_false hk
      rw [if_neg hk, Option.map_map, hhead]
      exact ih

end SlotMap
