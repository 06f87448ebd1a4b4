import Mathlib

/-!
# Circular lists

Nodes with one link each. The links make a circle of a list of nodes when following them from
the first node visits the list, once each and in order, and comes back to the first node. A
walk may start at any node; nodes are put in and taken out by changing the links around them.
-/

variable {ι : Type*} {next next' : ι → ι} {l m xs ys : List ι} {h p q z : ι} {n : ℕ}

/-- Each node of the list is linked to the one after it. -/
abbrev Linked (next : ι → ι) (l : List ι) : Prop := l.IsChain fun x y => next x = y

/-- The links make a circle of the nodes of `l`, of which `h` is the first. -/
structure Circular (next : ι → ι) (h : ι) (l : List ι) : Prop where
  /-- The first node. -/
  head : l.head? = some h
  /-- No node occurs twice. -/
  nodup : l.Nodup
  /-- Through the list and back to the first node. -/
  linked : Linked next (l ++ [h])

/-- Follow the links until `test` accepts a node, `n` nodes at most. -/
def follow (next : ι → ι) (test : ι → Bool) : ℕ → ι → Option ι
  | 0, _ => none
  | n + 1, x => if test x then some x else follow next test n (next x)

/-- The walk finds the one node that `test` accepts. -/
theorem follow_eq_some {test : ι → Bool} (hlinked : Linked next (q :: m)) (hmem : p ∈ q :: m)
    (htest : test p = true) (hother : ∀ x ∈ q :: m, x ≠ p → test x = false)
    (hn : (q :: m).length ≤ n) : follow next test n q = some p := by
  induction m generalizing q n with
  | nil =>
    obtain ⟨k, rfl⟩ : ∃ k, n = k + 1 := ⟨n - 1, by rw [List.length_singleton] at hn; omega⟩
    obtain rfl := List.mem_singleton.mp hmem
    rw [follow, if_pos htest]
  | cons c m ih =>
    obtain ⟨k, rfl⟩ : ∃ k, n = k + 1 := ⟨n - 1, by rw [List.length_cons] at hn; omega⟩
    rw [follow]
    by_cases hq : q = p
    · rw [hq, if_pos htest]
    · obtain ⟨hnext, hrest⟩ := List.isChain_cons_cons.mp hlinked
      have hno := hother q List.mem_cons_self hq
      rw [hno, if_neg Bool.false_ne_true, hnext]
      rw [List.length_cons] at hn
      apply ih hrest ((List.mem_cons.mp hmem).resolve_left (Ne.symm hq))
      · exact fun x hx => hother x (List.mem_cons_of_mem _ hx)
      · omega

/-- Only the links of the nodes before the last matter. -/
theorem Linked.congr (hlinked : Linked next (l ++ [z])) (heq : ∀ x ∈ l, next' x = next x) :
    Linked next' (l ++ [z]) := by
  induction l with
  | nil => exact .singleton z
  | cons x l ih =>
    have hrest := ih (List.IsChain.tail hlinked) fun y hy => heq y (List.mem_cons_of_mem _ hy)
    cases l with
    | nil =>
      have hx : next x = z := (List.isChain_cons_cons.mp hlinked).1
      exact List.isChain_cons_cons.mpr ⟨(heq x List.mem_cons_self).trans hx, hrest⟩
    | cons y l =>
      have hx : next x = y := (List.isChain_cons_cons.mp hlinked).1
      exact List.isChain_cons_cons.mpr ⟨(heq x List.mem_cons_self).trans hx, hrest⟩

namespace Circular

/-- A walk around the circle may start at any node. -/
theorem walk (hc : Circular next h l) (hq : q ∈ l) :
    ∃ m, (q :: m).Perm l ∧ Linked next (q :: (m ++ [q])) := by
  obtain ⟨a, b, rfl⟩ := List.append_of_mem hq
  have hlinked := hc.linked
  rw [List.append_assoc, List.cons_append] at hlinked
  obtain ⟨hbefore, hafter⟩ := List.isChain_split.mp hlinked
  cases a with
  | nil =>
    obtain rfl : q = h := by simpa using hc.head
    exact ⟨b, List.Perm.refl _, hafter⟩
  | cons c a =>
    obtain rfl : c = h := by simpa using hc.head
    refine ⟨b ++ c :: a, ?_, ?_⟩
    · rw [← List.cons_append]
      exact List.perm_append_comm
    · rw [List.append_assoc, List.cons_append, ← List.cons_append]
      exact List.isChain_split.mpr ⟨hafter, hbefore⟩

/-- A node is linked to the one after it, the last one to the first. -/
theorem next_eq (hc : Circular next h (xs ++ p :: ys)) : next p = ys.headD h := by
  have hlinked := hc.linked
  rw [List.append_assoc, List.cons_append] at hlinked
  obtain ⟨-, hafter⟩ := List.isChain_split.mp hlinked
  cases ys with
  | nil => exact (List.isChain_cons_cons.mp hafter).1
  | cons y ys => exact (List.isChain_cons_cons.mp hafter).1

/-- Links of other nodes do not matter. -/
theorem congr (hc : Circular next h l) (heq : ∀ x ∈ l, next' x = next x) :
    Circular next' h l :=
  ⟨hc.head, hc.nodup, hc.linked.congr heq⟩

/-- Change the links after a node: the nodes of `old` go, those of `new` come. -/
theorem splice {old : List ι} (hc : Circular next h (xs ++ p :: (old ++ ys))) (new : List ι)
    (hnodup : (xs ++ p :: (new ++ ys)).Nodup) (hnew : Linked next' (p :: (new ++ [ys.headD h])))
    (hxs : ∀ x ∈ xs, next' x = next x) (hys : ∀ y ∈ ys, next' y = next y) :
    Circular next' h (xs ++ p :: (new ++ ys)) := by
  refine ⟨?_, hnodup, ?_⟩
  · have hhead := hc.head
    cases xs with
    | nil => simpa using hhead
    | cons x xs => simpa using hhead
  have hlinked := hc.linked
  rw [List.append_assoc, List.cons_append] at hlinked
  obtain ⟨hbefore, hafter⟩ := List.isChain_split.mp hlinked
  rw [List.append_assoc, List.cons_append]
  refine List.isChain_split.mpr ⟨Linked.congr hbefore hxs, ?_⟩
  cases ys with
  | nil => simpa using hnew
  | cons y ys =>
    rw [List.headD_cons] at hnew
    rw [List.append_assoc, List.cons_append, ← List.cons_append] at hafter ⊢
    obtain ⟨-, hrest⟩ := List.isChain_split.mp hafter
    refine List.isChain_split.mpr ⟨hnew, ?_⟩
    exact Linked.congr (l := y :: ys) hrest hys

/-- A node of the circle that is not the first comes after the node linked to it. -/
theorem eq_append_of_next (hc : Circular next h l) (hp : p ∈ l) (hh : next p ≠ h) :
    ∃ xs ys, l = xs ++ p :: next p :: ys := by
  obtain ⟨xs, ys, rfl⟩ := List.append_of_mem hp
  have hnext := hc.next_eq
  cases ys with
  | nil => exact absurd hnext hh
  | cons y ys => exact ⟨xs, ys, by rw [hnext, List.headD_cons]⟩

end Circular
