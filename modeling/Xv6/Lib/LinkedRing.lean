import Mathlib

/-!
# Circular doubly linked lists

Nodes with two links each, around a head node. The links form a ring when following them from
the head visits a list of nodes once each, in order, and comes back to the head, and the
backward links undo the forward ones. Taking a node out and putting it in after the head are
the usual four assignments; a search is a loop that follows the links.
-/

/-- The links of the nodes; `none` is the head. -/
structure LinkedRing (ι : Type*) where
  /-- The next node. -/
  next : Option ι → Option ι
  /-- The previous node. -/
  prev : Option ι → Option ι

namespace LinkedRing

variable {ι : Type*}

/-- The links with the directions exchanged. -/
def flip (L : LinkedRing ι) : LinkedRing ι := ⟨L.prev, L.next⟩

/-- `y` follows `x`, in both directions. -/
def Adjacent (L : LinkedRing ι) (x y : Option ι) : Prop := L.next x = y ∧ L.prev y = x

/-- The links form a ring through the nodes of `l`. -/
structure Ring (L : LinkedRing ι) (l : List ι) : Prop where
  /-- No node occurs twice. -/
  nodup : l.Nodup
  /-- From the head through the list back to the head. -/
  chain : (none :: (l.map some ++ [none])).IsChain L.Adjacent

/-- The nodes one after the other until `test` accepts one. The first argument bounds the number
of nodes. -/
def findFrom (follow : Option ι → Option ι) (test : ι → Bool) : ℕ → Option ι → Option ι
  | 0, _ => none
  | _, none => none
  | n + 1, some b => if test b then some b else findFrom follow test n (follow (some b))

section

variable [DecidableEq ι]

/-- `b->next->prev = b->prev; b->prev->next = b->next`. -/
def unlink (L : LinkedRing ι) (b : ι) : LinkedRing ι :=
  let L : LinkedRing ι :=
    { L with prev := Function.update L.prev (L.next (some b)) (L.prev (some b)) }
  { L with next := Function.update L.next (L.prev (some b)) (L.next (some b)) }

/-- `b->next = head.next; b->prev = &head; head.next->prev = b; head.next = b`. -/
def insertHead (L : LinkedRing ι) (b : ι) : LinkedRing ι :=
  let L : LinkedRing ι := { L with next := Function.update L.next (some b) (L.next none) }
  let L : LinkedRing ι := { L with prev := Function.update L.prev (some b) none }
  let L : LinkedRing ι := { L with prev := Function.update L.prev (L.next none) (some b) }
  { L with next := Function.update L.next none (some b) }

end

variable {L L' : LinkedRing ι} {l l₁ l₂ : List ι} {b : ι}

/-- A chain depends on the forward links of all nodes but the last and on the backward links of
all but the first. -/
theorem chain_congr {zs : List (Option ι)} (hchain : zs.IsChain L.Adjacent)
    (hnext : ∀ x ∈ zs.dropLast, L'.next x = L.next x)
    (hprev : ∀ y ∈ zs.tail, L'.prev y = L.prev y) : zs.IsChain L'.Adjacent := by
  induction zs with
  | nil => exact .nil
  | cons x zs ih =>
    cases zs with
    | nil => exact .singleton x
    | cons y zs =>
      obtain ⟨⟨hxy, hyx⟩, hrest⟩ := List.isChain_cons_cons.mp hchain
      refine List.isChain_cons_cons.mpr ⟨⟨?_, ?_⟩, ih hrest ?_ ?_⟩
      · rw [hnext x (by simp), hxy]
      · rw [hprev y (by simp), hyx]
      · intro z hz
        exact hnext z (by rw [List.dropLast_cons_cons]; exact List.mem_cons_of_mem _ hz)
      · intro z hz
        exact hprev z (List.mem_of_mem_tail hz)

/-- Reading a ring backwards. -/
theorem Ring.flip (hring : L.Ring l) : L.flip.Ring l.reverse := by
  refine ⟨List.nodup_reverse.mpr hring.nodup, ?_⟩
  have hreverse : none :: (l.reverse.map some ++ [none]) =
      (none :: (l.map some ++ [none])).reverse := by simp [List.map_reverse]
  rw [hreverse, List.isChain_reverse]
  exact hring.chain.imp fun x y h => ⟨h.2, h.1⟩

/-- The search from a node on, in a chain that ends at the head. -/
theorem findFrom_eq (test : ι → Bool) {n : ℕ} {x : Option ι}
    (hchain : (x :: (l.map some ++ [none])).IsChain L.Adjacent) (hn : l.length ≤ n) :
    findFrom L.next test n (L.next x) = l.find? test := by
  induction l generalizing n x with
  | nil =>
    obtain ⟨⟨hnext, -⟩, -⟩ := List.isChain_cons_cons.mp hchain
    rw [hnext]
    cases n <;> rfl
  | cons b l ih =>
    obtain ⟨⟨hnext, -⟩, hrest⟩ := List.isChain_cons_cons.mp hchain
    obtain ⟨m, rfl⟩ : ∃ m, n = m + 1 := ⟨n - 1, by rw [List.length_cons] at hn; omega⟩
    rw [hnext, findFrom]
    cases htest : test b with
    | true => simp [List.find?, htest]
    | false =>
      rw [List.length_cons] at hn
      rw [List.find?, htest, if_neg Bool.false_ne_true]
      exact ih hrest (by omega)

/-- The search through a whole ring. -/
theorem Ring.findFrom_next (hring : L.Ring l) (test : ι → Bool) {n : ℕ} (hn : l.length ≤ n) :
    findFrom L.next test n (L.next none) = l.find? test :=
  findFrom_eq test hring.chain hn

/-- The search through a whole ring, backwards. -/
theorem Ring.findFrom_prev (hring : L.Ring l) (test : ι → Bool) {n : ℕ} (hn : l.length ≤ n) :
    findFrom L.prev test n (L.prev none) = l.reverse.find? test :=
  hring.flip.findFrom_next test (by rwa [List.length_reverse])

section

variable [DecidableEq ι]

/-- The links of a node whose neighbours are known, after it has been taken out. -/
theorem unlink_eq {u v : Option ι} (hprev : L.prev (some b) = u) (hnext : L.next (some b) = v)
    (hv : v ≠ some b) :
    L.unlink b = ⟨Function.update L.next u v, Function.update L.prev v u⟩ := by
  unfold unlink
  simp only [hnext, hprev, Function.update_of_ne hv.symm]

/-- Taking a node out of a ring. -/
theorem Ring.unlink (hring : L.Ring (l₁ ++ b :: l₂)) : (L.unlink b).Ring (l₁ ++ l₂) := by
  have hnodup := hring.nodup
  rw [List.nodup_middle, List.nodup_cons, List.mem_append, not_or] at hnodup
  obtain ⟨⟨hb₁, hb₂⟩, hrest⟩ := hnodup
  obtain ⟨-, hnodup₂, hdisjoint⟩ := List.nodup_append.mp hrest
  obtain ⟨hnodup₁, -⟩ := List.nodup_append.mp hrest
  -- the node before, and the node after
  obtain ⟨xs, u, hxs⟩ : ∃ xs u, none :: l₁.map some = xs ++ [u] :=
    ⟨_, _, (List.dropLast_append_getLast (List.cons_ne_nil _ _)).symm⟩
  obtain ⟨v, ys, hys⟩ : ∃ v ys, l₂.map some ++ [none] = v :: ys :=
    List.exists_cons_of_ne_nil (by simp)
  have hchain := hring.chain
  have hsplit : none :: ((l₁ ++ b :: l₂).map some ++ [none]) = xs ++ u :: some b :: v :: ys := by
    rw [List.map_append, List.map_cons, List.append_assoc, List.cons_append, hys,
      ← List.cons_append, hxs, List.append_assoc, List.singleton_append]
  rw [hsplit, List.isChain_append_cons_cons, List.isChain_cons_cons] at hchain
  obtain ⟨hleft, ⟨-, hub⟩, ⟨hbv, -⟩, hright⟩ := hchain
  have hu : u ∈ none :: l₁.map some := by rw [hxs]; simp
  have hv : v ∈ l₂.map some ++ [none] := by rw [hys]; simp
  have hxsNodup : (xs ++ [u]).Nodup := by
    rw [← hxs, List.nodup_cons]
    exact ⟨by simp, hnodup₁.map (Option.some_injective ι)⟩
  have hysNodup : (v :: ys).Nodup := by
    rw [← hys, List.nodup_append]
    refine ⟨hnodup₂.map (Option.some_injective ι), by simp, ?_⟩
    simp
  have hvb : v ≠ some b := by
    rintro rfl
    simp [hb₂] at hv
  refine ⟨hrest, ?_⟩
  have hgoal : none :: ((l₁ ++ l₂).map some ++ [none]) = xs ++ u :: v :: ys := by
    rw [List.map_append, List.append_assoc, hys, ← List.cons_append, hxs, List.append_assoc,
      List.singleton_append]
  rw [hgoal, List.isChain_append_cons_cons, unlink_eq hub hbv hvb]
  refine ⟨chain_congr hleft (fun x hx => ?_) (fun y hy => ?_), ⟨?_, ?_⟩,
    chain_congr hright (fun x hx => ?_) (fun y hy => ?_)⟩
  · rw [List.dropLast_concat] at hx
    refine Function.update_of_ne ?_ _ _
    rintro rfl
    rw [List.nodup_append] at hxsNodup
    exact hxsNodup.2.2 x hx x (by simp) rfl
  · rw [← hxs, List.tail_cons] at hy
    refine Function.update_of_ne ?_ _ _
    rintro rfl
    obtain ⟨c, hc, rfl⟩ := List.mem_map.mp hy
    simp only [List.mem_append, List.mem_map, Option.some.injEq, exists_eq_right,
      List.mem_singleton, reduceCtorEq, or_false] at hv
    exact hdisjoint c hc c hv rfl
  · exact Function.update_self ..
  · exact Function.update_self ..
  · rw [← hys, List.dropLast_concat] at hx
    refine Function.update_of_ne ?_ _ _
    rintro rfl
    obtain ⟨c, hc, rfl⟩ := List.mem_map.mp hx
    simp only [List.mem_cons, reduceCtorEq, List.mem_map, Option.some.injEq, exists_eq_right,
      false_or] at hu
    exact hdisjoint c hu c hc rfl
  · refine Function.update_of_ne ?_ _ _
    rintro rfl
    exact (List.nodup_cons.mp hysNodup).1 hy

/-- Putting a node in after the head. -/
theorem Ring.insertHead (hring : L.Ring l) (hb : b ∉ l) : (L.insertHead b).Ring (b :: l) := by
  obtain ⟨w, ws, hws⟩ : ∃ w ws, l.map some ++ [none] = w :: ws :=
    List.exists_cons_of_ne_nil (by simp)
  have hchain := hring.chain
  rw [hws, List.isChain_cons_cons] at hchain
  obtain ⟨⟨hnext, -⟩, hrest⟩ := hchain
  have hw : w ∈ l.map some ++ [none] := by rw [hws]; simp
  have hwb : w ≠ some b := by
    rintro rfl
    simp [hb] at hw
  have hwsNodup : (w :: ws).Nodup := by
    rw [← hws, List.nodup_append]
    exact ⟨hring.nodup.map (Option.some_injective ι), by simp, by simp⟩
  have heq : L.insertHead b =
      ⟨Function.update (Function.update L.next (some b) w) none (some b),
        Function.update (Function.update L.prev (some b) none) w (some b)⟩ := by
    have hhead : Function.update L.next (some b) w none = w := by
      rw [Function.update_of_ne (Option.some_ne_none b).symm, hnext]
    unfold LinkedRing.insertHead
    simp only [hnext, hhead]
  refine ⟨List.nodup_cons.mpr ⟨hb, hring.nodup⟩, ?_⟩
  rw [List.map_cons, List.cons_append, hws, List.isChain_cons_cons, List.isChain_cons_cons, heq]
  refine ⟨⟨?_, ?_⟩, ⟨?_, ?_⟩, chain_congr hrest (fun x hx => ?_) fun y hy => ?_⟩
  · dsimp only
    rw [Function.update_self]
  · dsimp only
    rw [Function.update_of_ne hwb.symm, Function.update_self]
  · dsimp only
    rw [Function.update_of_ne (Option.some_ne_none b), Function.update_self]
  · dsimp only
    rw [Function.update_self]
  · rw [← hws, List.dropLast_concat] at hx
    obtain ⟨c, hc, rfl⟩ := List.mem_map.mp hx
    have hcb : (some c : Option ι) ≠ some b := by
      rintro ⟨⟩
      exact hb hc
    dsimp only
    rw [Function.update_of_ne (Option.some_ne_none c), Function.update_of_ne hcb]
  · have hyw : y ≠ w := by
      rintro rfl
      exact (List.nodup_cons.mp hwsNodup).1 hy
    have hyb : y ≠ some b := by
      rintro rfl
      have hmem : some b ∈ l.map some ++ [none] := by
        rw [hws]
        exact List.mem_cons_of_mem _ hy
      simp [hb] at hmem
    dsimp only
    rw [Function.update_of_ne hyw, Function.update_of_ne hyb]

/-- Moving a node to the place after the head. -/
theorem Ring.moveHead (hring : L.Ring (l₁ ++ b :: l₂)) :
    ((L.unlink b).insertHead b).Ring (b :: (l₁ ++ l₂)) := by
  have hnodup := hring.nodup
  rw [List.nodup_middle, List.nodup_cons] at hnodup
  exact hring.unlink.insertHead hnodup.1

end

/-- The head alone, linked to itself. -/
def empty : LinkedRing ι := ⟨fun _ => none, fun _ => none⟩

theorem ring_empty : (empty : LinkedRing ι).Ring [] :=
  ⟨List.nodup_nil, List.isChain_cons_cons.mpr ⟨⟨rfl, rfl⟩, .singleton _⟩⟩

end LinkedRing
