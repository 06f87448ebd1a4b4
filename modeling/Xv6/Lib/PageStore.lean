import Mathlib

/-!
# Page stores with a free list

A store has pages with contents and a list of free pages. Whoever works on the store holds a
multiset of pages. Allocating, releasing and writing a page move pages between the free list
and what is held, and touch no other page; `Moves` says this for a whole computation and
composes. A footprint that is read off the contents of its own pages is then unchanged by a
computation that does not hold any of them.
-/

/-- Pages with contents, and a list of free pages. -/
structure PageStore (α β : Type*) where
  /-- The free pages, the next one to be handed out first. -/
  free : List α
  /-- The contents of the pages. -/
  page : α → β

namespace PageStore

variable {ι α β : Type*}

/-- Take the first free page. -/
def alloc (m : PageStore α β) : Option α × PageStore α β :=
  match m.free with
  | [] => (none, m)
  | f :: fs => (some f, { m with free := fs })

/-- Replace the contents of a page. -/
def write [DecidableEq α] (m : PageStore α β) (f : α) (b : β) : PageStore α β :=
  { m with page := fun g => if g = f then b else m.page g }

/-- Fill a page with `junk` and put it in front of the free list. -/
def release [DecidableEq α] (m : PageStore α β) (junk : β) (f : α) : PageStore α β :=
  { m.write f junk with free := f :: m.free }

@[simp] theorem write_free [DecidableEq α] (m : PageStore α β) (f : α) (b : β) :
    (m.write f b).free = m.free := rfl

@[simp] theorem write_page_self [DecidableEq α] (m : PageStore α β) (f : α) (b : β) :
    (m.write f b).page f = b := by simp [write]

theorem write_page_of_ne [DecidableEq α] {m : PageStore α β} {f g : α} {b : β} (hne : g ≠ f) :
    (m.write f b).page g = m.page g := by simp [write, hne]

/-- A computation that starts with the pages `held` and ends with the pages `held'`: no page is
lost or doubled, and pages that are neither free nor held keep their contents. -/
structure Moves (m : PageStore α β) (held : Multiset α) (m' : PageStore α β)
    (held' : Multiset α) : Prop where
  /-- Free and held pages together stay the same. -/
  total : (m'.free : Multiset α) + held' = m.free + held
  /-- Other pages keep their contents. -/
  frame : ∀ f, f ∉ (m.free : Multiset α) + held → m'.page f = m.page f

namespace Moves

variable {m m' m'' : PageStore α β} {held held' held'' : Multiset α}

theorem refl (m : PageStore α β) (held : Multiset α) : Moves m held m held :=
  ⟨rfl, fun _ _ => rfl⟩

theorem trans (hfirst : Moves m held m' held') (hsecond : Moves m' held' m'' held'') :
    Moves m held m'' held'' := by
  refine ⟨hsecond.total.trans hfirst.total, fun f hf => ?_⟩
  have hf' : f ∉ (m'.free : Multiset α) + held' := by rwa [hfirst.total]
  rw [hsecond.frame f hf', hfirst.frame f hf]

/-- Pages that the computation does not look at may be added to what is held. -/
theorem add (hmoves : Moves m held m' held') (rest : Multiset α) :
    Moves m (held + rest) m' (held' + rest) := by
  refine ⟨?_, fun f hf => hmoves.frame f fun hmem => hf ?_⟩
  · rw [← add_assoc, ← add_assoc, hmoves.total]
  · rw [← add_assoc]
    exact Multiset.mem_add.mpr (.inl hmem)

theorem cons (hmoves : Moves m held m' held') (f : α) :
    Moves m (f ::ₘ held) m' (f ::ₘ held') := by
  have hadd := hmoves.add {f}
  rwa [add_comm, Multiset.singleton_add, add_comm, Multiset.singleton_add] at hadd

/-- Taking a page from the free list. -/
theorem alloc {f : α} (halloc : m.alloc = (some f, m')) (held : Multiset α) :
    Moves m held m' (f ::ₘ held) := by
  unfold PageStore.alloc at halloc
  split at halloc
  · simp at halloc
  · rename_i fs hfree
    obtain ⟨rfl, rfl⟩ : _ = f ∧ _ = m' := by simpa using halloc
    refine ⟨?_, fun _ _ => rfl⟩
    rw [hfree, ← Multiset.cons_coe, Multiset.cons_add, Multiset.add_cons]

/-- Putting a page back. -/
theorem release [DecidableEq α] (m : PageStore α β) (junk : β) (f : α) (held : Multiset α) :
    Moves m (f ::ₘ held) (m.release junk f) held := by
  refine ⟨?_, fun g hg => ?_⟩
  · rw [PageStore.release, ← Multiset.cons_coe, Multiset.cons_add, Multiset.add_cons]
  · have hne : g ≠ f := fun h => hg (by simp [h])
    exact write_page_of_ne hne

/-- Writing to a page that is held. -/
theorem write [DecidableEq α] {f : α} (hmem : f ∈ held) (b : β) :
    Moves m held (m.write f b) held := by
  refine ⟨rfl, fun g hg => write_page_of_ne fun h => hg ?_⟩
  exact Multiset.mem_add.mpr (.inr (h ▸ hmem))

/-- Other pages, in the sense of a list without duplicates, keep their contents. -/
theorem page_of_mem_rest (hmoves : Moves m held m' held') {rest : Multiset α}
    (hnodup : ((m.free : Multiset α) + held + rest).Nodup) {f : α} (hmem : f ∈ rest) :
    m'.page f = m.page f := by
  have hdisjoint := (Multiset.nodup_add.mp hnodup).2.2
  exact hmoves.frame f fun h => Multiset.disjoint_left.mp hdisjoint h hmem

end Moves

/-- A failed allocation changes nothing and finds the free list empty. -/
theorem alloc_eq_none {m m' : PageStore α β} (halloc : m.alloc = (none, m')) :
    m' = m ∧ m.free = [] := by
  unfold alloc at halloc
  split at halloc
  · rename_i hfree
    exact ⟨by simpa using halloc.symm, hfree⟩
  · simp at halloc

/-- Allocation changes no contents and takes one page. -/
theorem alloc_eq_some {m m' : PageStore α β} {f : α} (halloc : m.alloc = (some f, m')) :
    m.free = f :: m'.free ∧ m'.page = m.page := by
  unfold alloc at halloc
  split at halloc
  · simp at halloc
  · rename_i fs hfree
    obtain ⟨rfl, rfl⟩ : _ = f ∧ _ = m' := by simpa using halloc
    exact ⟨hfree, rfl⟩

/-! ## Footprints with an index -/

variable [Fintype ι]

/-- All the pages of a family. -/
@[irreducible] def gather (f : ι → Multiset α) : Multiset α := ∑ i, f i

theorem mem_gather {f : ι → Multiset α} {a : α} : a ∈ gather f ↔ ∃ i, a ∈ f i := by
  unfold gather
  simp [Multiset.mem_sum]

theorem gather_congr {f g : ι → Multiset α} (heq : ∀ i, f i = g i) : gather f = gather g :=
  congrArg gather (funext heq)

theorem le_gather (f : ι → Multiset α) (i : ι) : f i ≤ gather f := by
  unfold gather
  exact Finset.single_le_sum (fun _ _ => Multiset.zero_le _) (Finset.mem_univ i)

theorem gather_zero : gather (fun _ : ι => (0 : Multiset α)) = 0 := by
  unfold gather
  simp

theorem gather_fin {n : ℕ} (f : Fin n → Multiset α) :
    gather f = ((List.finRange n).map f).sum := by
  unfold gather
  exact Fin.sum_univ_def f

variable [DecidableEq ι]

/-- All the pages of a family change by what changes in one member. -/
theorem gather_update {f g : ι → Multiset α} {i : ι} (hother : ∀ j, j ≠ i → g j = f j) :
    gather g + f i = gather f + g i := by
  unfold gather
  rw [← Finset.add_sum_erase _ f (Finset.mem_univ i),
    ← Finset.add_sum_erase _ g (Finset.mem_univ i)]
  have hrest : ∑ j ∈ Finset.univ.erase i, g j = ∑ j ∈ Finset.univ.erase i, f j :=
    Finset.sum_congr rfl fun j hj => hother j (Finset.ne_of_mem_erase hj)
  rw [hrest]
  abel

/-- A page of a family without duplicates belongs to one member. -/
theorem eq_of_mem_of_mem {f : ι → Multiset α} (hnodup : (gather f).Nodup) {i j : ι} {a : α}
    (hi : a ∈ f i) (hj : a ∈ f j) : i = j := by
  by_contra hne
  unfold gather at hnodup
  rw [← Finset.add_sum_erase _ f (Finset.mem_univ i)] at hnodup
  have hdisjoint := (Multiset.nodup_add.mp hnodup).2.2
  refine Multiset.disjoint_left.mp hdisjoint hi (Multiset.mem_sum.mpr ⟨j, ?_, hj⟩)
  exact Finset.mem_erase.mpr ⟨fun h => hne h.symm, Finset.mem_univ j⟩

end PageStore
