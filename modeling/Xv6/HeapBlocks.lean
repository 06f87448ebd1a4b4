import Xv6.UserHeap

/-!
# The free list and the blocks

The free list is a circle of blocks in the order of their addresses, from `base` on, with
something between each two; the free blocks and the others tile the memory obtained. `free`
keeps this: its loop finds the block before the one that is freed, wherever it starts, and the
two joins put the block in.
-/

namespace Xv6.UserHeap

open GuardedRun Span

variable {L : Layout} {s s' : Heap} {gs bs xs ys : List Span} {b g p : Span}

/-- The free list is `gs`, with `base` first, and `bs` is the rest of the memory. -/
structure FreeList (L : Layout) (s : Heap) (gs bs : List Span) : Prop where
  /-- `base` is first, and its size is 0. -/
  first : gs.head? = some ⟨L.base, 0⟩
  /-- The list is circular. -/
  ring : Circular s.ptr L.base (gs.map Span.start)
  /-- The list starts somewhere. -/
  rover : s.freep ∈ gs.map Span.start
  /-- The sizes are those of the blocks. -/
  size : ∀ g ∈ gs, g.len = sizeofHeader * s.size g.start
  /-- The blocks are in the order of their addresses, with something between each two. -/
  apart : gs.Pairwise Apart
  /-- No block is empty, apart from `base`. -/
  pos : ∀ g ∈ gs, g.start ≠ L.base → 0 < g.len
  /-- The rest is not empty. -/
  posRest : ∀ b ∈ bs, 0 < b.len
  /-- The blocks and the rest make up the memory. -/
  tiles : Tiles (gs ++ bs) L.start s.brk
  /-- The memory begins after `base`. -/
  start_le : L.start ≤ s.brk
  /-- It is user memory. -/
  brk_le : s.brk ≤ kernbase

/-- Addresses of user memory do not wrap. -/
theorem kernbase_lt : kernbase < 2 ^ 32 := by decide

theorem Layout.base_lt (L : Layout) : L.base < L.start := by
  have := L.base_le
  unfold sizeofHeader at this
  omega

/-- In a sorted list, the first block is the only one at its address. -/
theorem eq_of_head {f : Span} (hfirst : gs.head? = some f) (hapart : gs.Pairwise Apart)
    (hg : g ∈ gs) (heq : g.start = f.start) : g = f := by
  cases gs with
  | nil => cases hg
  | cons c fs =>
    obtain rfl : c = f := by simpa using hfirst
    rcases List.mem_cons.mp hg with rfl | hg
    · rfl
    · have hlt := ((List.pairwise_cons.mp hapart).1 g hg).start_lt
      omega

/-- What comes after a block does not change which block is first. -/
theorem head?_append_cons (xs ys zs : List Span) (p : Span) :
    (xs ++ p :: ys).head? = (xs ++ p :: zs).head? := by
  cases xs <;> rfl

/-- In a sorted list, no two blocks have the same address. -/
theorem nodup_starts (hapart : gs.Pairwise Apart) : (gs.map Span.start).Nodup :=
  List.pairwise_map.mpr (hapart.imp fun h => h.start_lt.ne)

namespace FreeList

/-- A block of the list other than `base` is in the memory. -/
theorem within (h : FreeList L s gs bs) (hg : g ∈ gs) (hbase : g.start ≠ L.base) :
    L.start ≤ g.start ∧ g.stop ≤ s.brk :=
  h.tiles.within (List.mem_append_left _ hg) (h.pos g hg hbase)

/-- A block that is not free is in the memory. -/
theorem within_rest (h : FreeList L s gs bs) (hb : b ∈ bs) :
    L.start ≤ b.start ∧ b.stop ≤ s.brk :=
  h.tiles.within (List.mem_append_right _ hb) (h.posRest b hb)

/-- The block at `base` is empty. -/
theorem eq_base (h : FreeList L s gs bs) (hg : g ∈ gs) (hbase : g.start = L.base) :
    g = ⟨L.base, 0⟩ :=
  eq_of_head h.first h.apart hg hbase

/-- No block of the list ends beyond the memory. -/
theorem stop_le (h : FreeList L s gs bs) (hg : g ∈ gs) : g.stop ≤ s.brk := by
  by_cases hbase : g.start = L.base
  · have hlt := L.base_lt
    have hle := h.start_le
    rw [h.eq_base hg hbase]
    simp only [Span.stop]
    omega
  · exact (h.within hg hbase).2

/-- All blocks of the list begin at `base` or later. -/
theorem base_le_start (h : FreeList L s gs bs) (hg : g ∈ gs) : L.base ≤ g.start := by
  by_cases hbase : g.start = L.base
  · exact hbase.ge
  · have hlt := L.base_lt
    have hle := (h.within hg hbase).1
    omega

/-- A block that is not free does not meet one that is. -/
theorem disjoint (h : FreeList L s gs bs) (hg : g ∈ gs) (hb : b ∈ bs) : g.Disjoint b := by
  by_cases hbase : g.start = L.base
  · have hlt := L.base_lt
    have hle := (h.within_rest hb).1
    rw [h.eq_base hg hbase]
    left
    simp only [Span.stop]
    omega
  · have htiles : Tiles (g :: ((gs ++ bs).erase g)) L.start s.brk :=
      h.tiles.perm (List.perm_cons_erase (List.mem_append_left _ hg))
    have hne : b ≠ g → b ∈ (gs ++ bs).erase g := fun hne =>
      (List.mem_erase_of_ne hne).mpr (List.mem_append_right _ hb)
    have hsub : [g, b].Sublist (gs ++ bs) :=
      (List.singleton_sublist.mpr hg).append (List.singleton_sublist.mpr hb)
    exact h.tiles.disjoint hsub (h.pos g hg hbase) (h.posRest b hb)

/-- A block that is not free has another address than one that is. -/
theorem start_ne (h : FreeList L s gs bs) (hg : g ∈ gs) (hb : b ∈ bs) : g.start ≠ b.start := by
  intro heq
  have hpos := h.posRest b hb
  by_cases hbase : g.start = L.base
  · have hlt := L.base_lt
    have hle := (h.within_rest hb).1
    omega
  · have hposg := h.pos g hg hbase
    rcases h.disjoint hg hb with hle | hle <;> simp only [Span.stop] at hle <;> omega

/-- The links of the list. -/
theorem ptr_eq (h : FreeList L s (xs ++ g :: ys) bs) :
    s.ptr g.start = (ys.map Span.start).headD L.base := by
  have hring := h.ring
  rw [List.map_append, List.map_cons] at hring
  exact hring.next_eq

/-- The list has no more blocks than there are addresses. -/
theorem length_le (h : FreeList L s gs bs) : gs.length ≤ Heap.turns := by
  have hsub : (gs.map Span.start).toFinset ⊆ Finset.range kernbase := by
    intro x hx
    obtain ⟨g, hg, rfl⟩ := List.mem_map.mp (List.mem_toFinset.mp hx)
    rw [Finset.mem_range]
    have hbrk := h.brk_le
    by_cases hbase : g.start = L.base
    · have hlt := L.base_lt
      have hle := h.start_le
      omega
    · have hpos := h.pos g hg hbase
      have hstop := h.stop_le hg
      simp only [Span.stop] at hstop
      omega
  have hcard := Finset.card_le_card hsub
  rw [List.toFinset_card_of_nodup h.ring.nodup, List.length_map, Finset.card_range] at hcard
  exact hcard

end FreeList

/-! ## The loop of `free` -/

/-- In a sorted list, the last block before an address. -/
theorem exists_last_lt {t : ℕ} {f : Span} {fs : List Span} (hapart : (f :: fs).Pairwise Apart)
    (hne : ∀ g ∈ f :: fs, g.start ≠ t) (hf : f.start < t) :
    ∃ xs p ys, f :: fs = xs ++ p :: ys ∧ p.start < t ∧ ∀ y ∈ ys, t < y.start := by
  induction fs generalizing f with
  | nil => exact ⟨[], f, [], rfl, hf, by simp⟩
  | cons g fs ih =>
    obtain ⟨hfirst, hrest⟩ := List.pairwise_cons.mp hapart
    rcases Nat.lt_or_ge g.start t with hlt | hge
    · obtain ⟨xs, p, ys, heq, hp, hys⟩ :=
        ih hrest (fun x hx => hne x (List.mem_cons_of_mem _ hx)) hlt
      exact ⟨f :: xs, p, ys, by rw [heq, List.cons_append], hp, hys⟩
    · refine ⟨[], f, g :: fs, rfl, hf, ?_⟩
      have hgt : t < g.start :=
        lt_of_le_of_ne hge (hne g (List.mem_cons_of_mem _ List.mem_cons_self)).symm
      intro y hy
      rcases List.mem_cons.mp hy with rfl | hy
      · exact hgt
      · exact hgt.trans ((List.pairwise_cons.mp hrest).1 y hy).start_lt

namespace FreeList

/-- The block that is freed has a place in the list. -/
theorem exists_place (h : FreeList L s gs (b :: bs)) :
    ∃ xs p ys, gs = xs ++ p :: ys ∧ p.start < b.start ∧ ∀ y ∈ ys, b.start < y.start := by
  have hfirst := h.first
  cases gs with
  | nil => cases hfirst
  | cons f fs =>
    obtain rfl : f = ⟨L.base, 0⟩ := by simpa using hfirst
    apply exists_last_lt h.apart
    · exact fun g hg => h.start_ne hg List.mem_cons_self
    · have hlt := L.base_lt
      have hle := (h.within_rest (b := b) List.mem_cons_self).1
      simp only
      omega

/-- The loop of `free` ends at the block before the one that is freed, and nowhere else. -/
theorem between_iff (h : FreeList L s (xs ++ p :: ys) (b :: bs)) (hp : p.start < b.start)
    (hys : ∀ y ∈ ys, b.start < y.start) (hg : g ∈ xs ++ p :: ys) :
    s.between b.start g.start = true ↔ g.start = p.start := by
  have hbase : L.base < b.start := by
    have hlt := L.base_lt
    have hle := (h.within_rest (b := b) List.mem_cons_self).1
    omega
  have hsorted := h.apart
  rw [List.pairwise_append, List.pairwise_cons] at hsorted
  obtain ⟨hxs, ⟨-, hyss⟩, hcross⟩ := hsorted
  simp only [Heap.between, Bool.or_eq_true, Bool.and_eq_true, decide_eq_true_eq]
  rcases List.mem_append.mp hg with hgx | hgp
  · -- before `p`: the next block is `p` or one before it
    have hgp : g.start < p.start := (hcross g hgx p List.mem_cons_self).start_lt
    obtain ⟨a, c, rfl⟩ := List.append_of_mem hgx
    have hnext : g.start < s.ptr g.start ∧ s.ptr g.start ≤ p.start := by
      rw [List.append_assoc, List.cons_append] at h
      rw [h.ptr_eq]
      cases c with
      | nil => exact ⟨hgp, le_rfl⟩
      | cons z c =>
        have hgz := (List.pairwise_cons.mp (List.pairwise_append.mp hxs).2.1).1 z (by simp)
        have hzp := hcross z (by simp) p List.mem_cons_self
        exact ⟨hgz.start_lt, hzp.start_lt.le⟩
    omega
  · rcases List.mem_cons.mp hgp with rfl | hgy
    · apply iff_of_true _ rfl
      rw [h.ptr_eq]
      cases ys with
      | nil =>
        have hle := h.base_le_start hg
        simp only [List.map_nil, List.headD_nil]
        omega
      | cons y ys =>
        have hy := hys y List.mem_cons_self
        simp only [List.map_cons, List.headD_cons]
        omega
    · -- after `p`: the next block is beyond it, or it is the last one and `base` comes next
      have hby := hys g hgy
      obtain ⟨a, c, rfl⟩ := List.append_of_mem hgy
      rw [← List.cons_append, ← List.append_assoc] at h
      rw [h.ptr_eq]
      cases c with
      | nil =>
        simp only [List.map_nil, List.headD_nil]
        omega
      | cons z c =>
        have hgz := (List.pairwise_cons.mp (List.pairwise_append.mp hyss).2.1).1 z (by simp)
        have hlt := hgz.start_lt
        simp only [List.map_cons, List.headD_cons]
        omega

/-- The loop of `free` ends at the block before the one that is freed. -/
theorem follow_eq (h : FreeList L s (xs ++ p :: ys) (b :: bs)) (hp : p.start < b.start)
    (hys : ∀ y ∈ ys, b.start < y.start) :
    follow s.ptr (s.between b.start) Heap.turns s.freep = some p.start := by
  obtain ⟨m, hperm, hlinked⟩ := h.ring.walk h.rover
  have hmem : ∀ x, x ∈ s.freep :: m ↔ ∃ g ∈ xs ++ p :: ys, g.start = x := by
    intro x
    rw [hperm.mem_iff, List.mem_map]
  have hlength : (s.freep :: m).length ≤ Heap.turns := by
    rw [hperm.length_eq, List.length_map]
    exact h.length_le
  rw [← List.cons_append] at hlinked
  refine follow_eq_some hlinked.left_of_append ((hmem _).mpr ⟨p, by simp, rfl⟩) ?_ ?_ hlength
  · exact (h.between_iff hp hys (by simp)).mpr rfl
  · intro x hx hne
    obtain ⟨g, hg, rfl⟩ := (hmem x).mp hx
    rw [← Bool.not_eq_true, h.between_iff hp hys hg]
    exact hne

/-- The blocks around the one that is freed end before it and begin after it. -/
theorem place (h : FreeList L s (xs ++ p :: ys) (b :: bs)) (hp : p.start < b.start)
    (hys : ∀ y ∈ ys, b.start < y.start) : p.stop ≤ b.start ∧ ∀ y ∈ ys, b.stop ≤ y.start := by
  constructor
  · have hle := b.start_le_stop
    rcases h.disjoint (g := p) (by simp) List.mem_cons_self with hbefore | hafter
    · exact hbefore
    · omega
  · intro y hy
    have hlt := hys y hy
    have hle := y.start_le_stop
    rcases h.disjoint (g := y) (by simp [hy]) List.mem_cons_self with hbefore | hafter
    · omega
    · exact hafter

end FreeList

/-! ## The joins -/

/-- The end of a block of user memory, as it is computed. -/
theorem plus_eq_stop {size : ℕ} (hsize : b.len = sizeofHeader * size)
    (hstop : b.stop ≤ kernbase) : plus b.start size = b.stop := by
  have hlt := kernbase_lt
  unfold plus
  rw [← hsize]
  exact Nat.mod_eq_of_lt (by unfold Span.stop at hstop; omega)

/-- The size of two blocks of user memory that have been joined. -/
theorem size_join {m n : ℕ} {c : Span} (hb : b.len = sizeofHeader * m)
    (hc : c.len = sizeofHeader * n) (htouch : b.stop = c.start) (hstop : c.stop ≤ kernbase) :
    b.len + c.len = sizeofHeader * ((m + n) % 2 ^ 32) := by
  have hlt := kernbase_lt
  unfold Span.stop at htouch hstop
  unfold sizeofHeader at *
  rw [Nat.mod_eq_of_lt (by omega)]
  omega

/-- Between the two joins of `free`: the block `b` after `p` is linked to what comes next, and
does not touch it. -/
structure Joined (L : Layout) (s : Heap) (xs : List Span) (p b : Span) (ys bs : List Span) :
    Prop where
  /-- `base` is first, and its size is 0. -/
  first : (xs ++ p :: ys).head? = some ⟨L.base, 0⟩
  /-- The list is circular, as it was before some blocks after `p` have been joined to `b`. -/
  ring : ∃ old, Circular s.ptr L.base ((xs ++ p :: (old ++ ys)).map Span.start)
  /-- `b` is linked to what comes next. -/
  linked : s.ptr b.start = (ys.map Span.start).headD L.base
  /-- The sizes are those of the blocks. -/
  size : ∀ g ∈ b :: (xs ++ p :: ys), g.len = sizeofHeader * s.size g.start
  /-- The blocks are in the order of their addresses, with something between each two. -/
  apart : (xs ++ p :: ys).Pairwise Apart
  /-- `b` comes after `p`. -/
  before : p.stop ≤ b.start
  /-- `b` comes before the next block and does not touch it. -/
  after : ∀ y ∈ ys, b.Apart y
  /-- No block is empty, apart from `base`. -/
  pos : ∀ g ∈ xs ++ p :: ys, g.start ≠ L.base → 0 < g.len
  /-- The others are not empty. -/
  posRest : ∀ c ∈ b :: bs, 0 < c.len
  /-- The blocks and the rest make up the memory. -/
  tiles : Tiles (b :: (xs ++ p :: ys ++ bs)) L.start s.brk
  /-- The memory begins after `base`. -/
  start_le : L.start ≤ s.brk
  /-- It is user memory. -/
  brk_le : s.brk ≤ kernbase

/-- The first join of `free`. -/
theorem FreeList.joinUpper (h : FreeList L s (xs ++ p :: ys) (b :: bs))
    (hsize : b.len = sizeofHeader * s.size b.start) (hp : p.start < b.start)
    (hys : ∀ y ∈ ys, b.start < y.start) : ∃ b' ys',
      Joined L (s.joinUpper p.start b.start) xs p b' ys' bs ∧ b'.start = b.start ∧
        b.len ≤ b'.len ∧
        ∀ x, x ≠ b.start → (s.joinUpper p.start b.start).size x = s.size x := by
  obtain ⟨hbefore, hafter⟩ := h.place hp hys
  have hstop : b.stop ≤ kernbase := (h.within_rest List.mem_cons_self).2.trans h.brk_le
  have hfresh : ∀ g ∈ xs ++ p :: ys, g.start ≠ b.start := fun g hg =>
    h.start_ne hg List.mem_cons_self
  have hlt := L.base_lt
  have hle := (h.within_rest (b := b) List.mem_cons_self).1
  have hbstop := b.start_le_stop
  have hptr := h.ptr_eq
  have hkeep : ∀ (n x : ℕ), x ≠ b.start → Function.update s.ptr b.start n x = s.ptr x :=
    fun n x hx => Function.update_of_ne hx n s.ptr
  have hring : ∀ n, Circular (Function.update s.ptr b.start n) L.base
      ((xs ++ p :: ys).map Span.start) := by
    intro n
    apply h.ring.congr
    intro x hx
    obtain ⟨g, hg, rfl⟩ := List.mem_map.mp hx
    exact hkeep n _ (hfresh g hg)
  have htiles : Tiles (b :: (xs ++ p :: ys ++ bs)) L.start s.brk :=
    h.tiles.perm List.perm_middle
  unfold Heap.joinUpper
  rw [plus_eq_stop hsize hstop]
  by_cases htouch : b.stop = s.ptr p.start
  · -- the block that follows is joined to `b`
    rw [if_pos htouch]
    cases ys with
    | nil =>
      rw [hptr, List.map_nil, List.headD_nil] at htouch
      omega
    | cons y ys =>
      rw [hptr, List.map_cons, List.headD_cons] at htouch
      have hyp : s.ptr p.start = y.start := by rw [hptr, List.map_cons, List.headD_cons]
      have hysize := h.size y (by simp)
      have hystop := (h.stop_le (g := y) (by simp)).trans h.brk_le
      have hyptr : s.ptr y.start = (ys.map Span.start).headD L.base := by
        have hh := h
        rw [← List.singleton_append, ← List.append_assoc] at hh
        exact hh.ptr_eq
      have hsub : (xs ++ p :: ys).Sublist (xs ++ p :: y :: ys) :=
        (((List.sublist_cons_self y ys).cons_cons p).append_left xs)
      refine ⟨⟨b.start, b.len + y.len⟩, ys, ?_, rfl, Nat.le_add_right _ _, ?_⟩
      · constructor
        · exact (head?_append_cons xs _ _ p).trans h.first
        · exact ⟨[y], hring _⟩
        · simp only [Heap.setPtr, Heap.setSize, Function.update_self, hyp, hyptr]
        · intro g hg
          rcases List.mem_cons.mp hg with rfl | hg
          · simp only [Heap.setPtr, Heap.setSize, Function.update_self, hyp]
            exact size_join hsize hysize htouch hystop
          · have hne := hfresh g (hsub.subset hg)
            simp only [Heap.setPtr, Heap.setSize, Function.update_of_ne hne]
            exact h.size g (hsub.subset hg)
        · exact h.apart.sublist hsub
        · exact hbefore
        · intro z hz
          have hyz : y.Apart z := by
            have hpy := (List.pairwise_append.mp h.apart).2.1
            exact (List.pairwise_cons.mp (List.pairwise_cons.mp hpy).2).1 z hz
          simp only [Apart, Span.stop] at hyz htouch ⊢
          omega
        · exact fun g hg => h.pos g (hsub.subset hg)
        · intro c hc
          rcases List.mem_cons.mp hc with rfl | hc
          · have := h.posRest b List.mem_cons_self
            simp only
            omega
          · exact h.posRest c (List.mem_cons_of_mem _ hc)
        · apply Tiles.join (b := y) _ htouch
          apply htiles.congr
          intro c
          simp only [List.count_append, List.count_cons]
          omega
        · exact h.start_le
        · exact h.brk_le
      · intro x hx
        simp only [Heap.setPtr, Heap.setSize, Function.update_of_ne hx]
  · rw [if_neg htouch]
    refine ⟨b, ys, ?_, rfl, le_rfl, fun x _ => rfl⟩
    constructor
    · exact h.first
    · exact ⟨[], hring _⟩
    · simp only [Heap.setPtr, Function.update_self, hptr]
    · intro g hg
      rcases List.mem_cons.mp hg with rfl | hg
      · exact hsize
      · exact h.size g hg
    · exact h.apart
    · exact hbefore
    · intro z hz
      cases ys with
      | nil => cases hz
      | cons y ys =>
        have hby := hafter y List.mem_cons_self
        rw [hptr, List.map_cons, List.headD_cons] at htouch
        have hlt : b.Apart y := lt_of_le_of_ne hby htouch
        rcases List.mem_cons.mp hz with rfl | hz
        · exact hlt
        · have hpy := (List.pairwise_append.mp h.apart).2.1
          exact hlt.trans ((List.pairwise_cons.mp (List.pairwise_cons.mp hpy).2).1 z hz)
    · exact h.pos
    · exact h.posRest
    · exact htiles
    · exact h.start_le
    · exact h.brk_le

/-- The second join of `free`. -/
theorem Joined.joinLower (h : Joined L s xs p b ys bs) : ∃ gs,
    FreeList L { s.joinLower p.start b.start with freep := p.start } gs bs ∧
      (∃ g ∈ gs, b.len ≤ g.len) ∧
      ∀ x, x ≠ p.start → (s.joinLower p.start b.start).size x = s.size x := by
  obtain ⟨old, hring⟩ := h.ring
  have hbpos := h.posRest b List.mem_cons_self
  obtain ⟨hle, hstop⟩ := h.tiles.within List.mem_cons_self hbpos
  have hlt := L.base_lt
  have hbrk := h.brk_le
  have hbefore := h.before
  have hbstop := b.start_le_stop
  have hpsize := h.size p (by simp)
  have hbsize := h.size b List.mem_cons_self
  have hsorted := h.apart
  rw [List.pairwise_append, List.pairwise_cons] at hsorted
  obtain ⟨hxs, ⟨hpys, hyss⟩, hcross⟩ := hsorted
  have hnex : ∀ g ∈ xs, g.start ≠ p.start := fun g hg =>
    (hcross g hg p List.mem_cons_self).start_lt.ne
  have hney : ∀ g ∈ ys, g.start ≠ p.start := fun g hg => (hpys g hg).start_lt.ne'
  have hkeepx : ∀ (n x : ℕ), x ∈ xs.map Span.start →
      Function.update s.ptr p.start n x = s.ptr x := by
    intro n x hx
    obtain ⟨g, hg, rfl⟩ := List.mem_map.mp hx
    exact Function.update_of_ne (hnex g hg) n s.ptr
  have hkeepy : ∀ (n y : ℕ), y ∈ ys.map Span.start →
      Function.update s.ptr p.start n y = s.ptr y := by
    intro n y hy
    obtain ⟨g, hg, rfl⟩ := List.mem_map.mp hy
    exact Function.update_of_ne (hney g hg) n s.ptr
  rw [List.map_append, List.map_cons, List.map_append] at hring
  unfold Heap.joinLower
  rw [plus_eq_stop hpsize (by omega)]
  by_cases htouch : p.stop = b.start
  · -- the block is joined to `p`, which is not `base`
    rw [if_pos htouch]
    have hpbase : p.start ≠ L.base := by
      intro hbase
      obtain rfl := eq_of_head h.first h.apart (by simp) hbase
      simp only [Span.stop] at htouch
      omega
    have hapart : (xs ++ ⟨p.start, p.len + b.len⟩ :: ys).Pairwise Apart := by
      rw [List.pairwise_append, List.pairwise_cons]
      refine ⟨hxs, ⟨fun y hy => ?_, hyss⟩, fun x hx y hy => ?_⟩
      · have hby := h.after y hy
        simp only [Apart, Span.stop] at hby htouch ⊢
        omega
      · rcases List.mem_cons.mp hy with rfl | hy
        · exact hcross x hx p List.mem_cons_self
        · exact hcross x hx y (List.mem_cons_of_mem _ hy)
    refine ⟨xs ++ ⟨p.start, p.len + b.len⟩ :: ys, ?_,
      ⟨⟨p.start, p.len + b.len⟩, by simp, Nat.le_add_left _ _⟩, ?_⟩
    · constructor
      · have hfirst := h.first
        cases xs with
        | nil =>
          obtain rfl : p = ⟨L.base, 0⟩ := by simpa using hfirst
          exact absurd rfl hpbase
        | cons x xs => simpa using hfirst
      · rw [List.map_append, List.map_cons]
        apply hring.splice [] (by simpa using nodup_starts hapart) _ (hkeepx _)
          (hkeepy _)
        simp only [List.nil_append]
        exact List.isChain_pair.mpr (by
          simp only [Heap.setSize, Function.update_self, h.linked])
      · simp
      · intro g hg
        simp only [Heap.setPtr, Heap.setSize]
        rcases List.mem_append.mp hg with hgx | hg
        · rw [Function.update_of_ne (hnex g hgx)]
          exact h.size g (by simp [hgx])
        · rcases List.mem_cons.mp hg with rfl | hgy
          · rw [Function.update_self]
            exact size_join hpsize hbsize htouch (by omega)
          · rw [Function.update_of_ne (hney g hgy)]
            exact h.size g (by simp [hgy])
      · exact hapart
      · intro g hg hbase
        rcases List.mem_append.mp hg with hgx | hg
        · exact h.pos g (by simp [hgx]) hbase
        · rcases List.mem_cons.mp hg with rfl | hgy
          · exact Nat.add_pos_right _ hbpos
          · exact h.pos g (by simp [hgy]) hbase
      · exact fun c hc => h.posRest c (List.mem_cons_of_mem _ hc)
      · have hjoin : Tiles (⟨p.start, p.len + b.len⟩ :: (xs ++ ys ++ bs)) L.start s.brk := by
          apply Tiles.join (b := b) _ htouch
          apply h.tiles.congr
          intro c
          simp only [List.count_append, List.count_cons]
          omega
        apply hjoin.congr
        intro c
        simp only [List.count_append, List.count_cons]
        omega
      · exact h.start_le
      · exact h.brk_le
    · intro x hx
      simp only [Heap.setPtr, Heap.setSize, Function.update_of_ne hx]
  · -- the block is put in after `p`
    rw [if_neg htouch]
    have hpb : p.Apart b := lt_of_le_of_ne hbefore htouch
    have hneb : b.start ≠ p.start := hpb.start_lt.ne'
    have hapart : (xs ++ p :: (b :: ys)).Pairwise Apart := by
      rw [List.pairwise_append, List.pairwise_cons, List.pairwise_cons]
      refine ⟨hxs, ⟨fun y hy => ?_, h.after, hyss⟩, fun x hx y hy => ?_⟩
      · rcases List.mem_cons.mp hy with rfl | hy
        · exact hpb
        · exact hpys y hy
      · rcases List.mem_cons.mp hy with rfl | hy
        · exact hcross x hx y List.mem_cons_self
        · rcases List.mem_cons.mp hy with rfl | hy
          · exact (hcross x hx p List.mem_cons_self).trans hpb
          · exact hcross x hx y (List.mem_cons_of_mem _ hy)
    refine ⟨xs ++ p :: (b :: ys), ?_, ⟨b, by simp, le_rfl⟩, fun x _ => rfl⟩
    constructor
    · exact (head?_append_cons xs _ _ p).trans h.first
    · rw [List.map_append, List.map_cons, List.map_cons]
      apply hring.splice [b.start] (by simpa using nodup_starts hapart) _ (hkeepx _)
        (hkeepy _)
      refine List.isChain_cons_cons.mpr ⟨?_, List.isChain_pair.mpr ?_⟩
      · simp only [Function.update_self]
      · simp only [Function.update_of_ne hneb, h.linked]
    · simp
    · intro g hg
      apply h.size g
      simp only [List.mem_append, List.mem_cons] at hg ⊢
      tauto
    · exact hapart
    · intro g hg hbase
      simp only [List.mem_append, List.mem_cons] at hg
      rcases hg with hg | hg | rfl | hg
      · exact h.pos g (by simp [hg]) hbase
      · exact h.pos g (by simp [hg]) hbase
      · exact hbpos
      · exact h.pos g (by simp [hg]) hbase
    · exact fun c hc => h.posRest c (List.mem_cons_of_mem _ hc)
    · apply h.tiles.congr
      intro c
      simp only [List.count_append, List.count_cons]
      omega
    · exact h.start_le
    · exact h.brk_le

/-- `free` of a block puts it into the list and leaves the sizes of the others as they are. -/
theorem FreeList.free (h : FreeList L s gs (b :: bs))
    (hsize : b.len = sizeofHeader * s.size b.start) : ∃ s' gs',
      s.free (plus b.start 1) = some s' ∧ FreeList L s' gs' bs ∧
        (∃ g ∈ gs', b.len ≤ g.len) ∧ s'.brk = s.brk ∧
        ∀ c ∈ bs, s'.size c.start = s.size c.start := by
  obtain ⟨xs, p, ys, rfl, hp, hys⟩ := h.exists_place
  obtain ⟨b', ys', hjoined, hstart, hlen, hupper⟩ := h.joinUpper hsize hp hys
  rw [← hstart] at hjoined hupper
  obtain ⟨gs', hlist, ⟨g, hg, hglen⟩, hlower⟩ := hjoined.joinLower
  have hheader : plus b.start 1 - sizeofHeader = b'.start := by
    have hpos := h.posRest b List.mem_cons_self
    have hstop := (h.within_rest (b := b) List.mem_cons_self).2
    have hbrk := h.brk_le
    have hlt := kernbase_lt
    unfold Span.stop at hstop
    unfold plus sizeofHeader at *
    rw [hstart, Nat.mod_eq_of_lt (by omega)]
    omega
  refine ⟨_, gs', ?_, hlist, ⟨g, hg, hlen.trans hglen⟩, ?_, ?_⟩
  · unfold Heap.free
    dsimp only
    rw [hheader, hstart, h.follow_eq hp hys]
    rfl
  · simp only [Heap.joinLower, Heap.joinUpper, Heap.setPtr, Heap.setSize]
    split_ifs <;> rfl
  · intro c hc
    have hcb : c.start ≠ b'.start := by
      have htiles : Tiles (b :: (xs ++ p :: ys ++ bs)) L.start s.brk :=
        h.tiles.perm List.perm_middle
      rw [hstart]
      exact htiles.start_ne (List.mem_append_right _ hc) (h.posRest b List.mem_cons_self)
        (h.posRest c (List.mem_cons_of_mem _ hc))
    have hcp : c.start ≠ p.start :=
      (h.start_ne (g := p) (by simp) (List.mem_cons_of_mem _ hc)).symm
    exact (hlower c.start hcp).trans (hupper c.start hcb)

end Xv6.UserHeap
