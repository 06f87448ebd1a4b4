import Xv6.HeapBlocks

/-!
# The user heap stays sound

`malloc` walks around the free list once, and once more after `morecore` has put a block into
it that is large enough; it takes a block, or the end of one. So every call of `malloc` and
`free` ends, and in every state of a run the free blocks and the blocks the program holds make
up the memory.
-/

namespace Xv6.UserHeap

open GuardedRun Span

variable {L : Layout} {s s' : Heap} {gs bs : List Span} {b g p : Span} {n : ℕ}

/-! ## Taking a block -/

/-- `base` is in the list, with size 0. -/
theorem FreeList.size_base (h : FreeList L s gs bs) : s.size L.base = 0 := by
  have hlen := h.size ⟨L.base, 0⟩ (List.mem_of_mem_head? h.first)
  simp only [sizeofHeader] at hlen
  omega

/-- A link that does not lead to `base` is one between neighbours. -/
theorem FreeList.exists_neighbours {prevp : ℕ} (h : FreeList L s gs bs)
    (hprev : prevp ∈ gs.map Span.start) (hbase : s.ptr prevp ≠ L.base) :
    ∃ xs g f ys, gs = xs ++ g :: f :: ys ∧ g.start = prevp ∧ f.start = s.ptr prevp := by
  obtain ⟨as, cs, heq⟩ := h.ring.eq_append_of_next hprev hbase
  obtain ⟨xs, rest, rfl, -, hrest⟩ := List.map_eq_append_iff.mp heq
  obtain ⟨g, rest, rfl, hg, hrest⟩ := List.map_eq_cons_iff.mp hrest
  obtain ⟨f, ys, rfl, hf, -⟩ := List.map_eq_cons_iff.mp hrest
  exact ⟨xs, g, f, ys, rfl, hg, hf⟩

/-- A call of `malloc` has taken a block of `n` units. -/
structure Taken (L : Layout) (s : Heap) (bs : List Span) (n : ℕ) (x : Heap × ℕ) (b : Span) :
    Prop where
  /-- The block is not free, and the list is sound. -/
  list : ∃ gs, FreeList L x.1 gs (b :: bs)
  /-- The pointer returned is to what comes after the header. -/
  result : x.2 = plus b.start 1
  /-- The block has the size asked for. -/
  len : b.len = sizeofHeader * n
  /-- Its header says so. -/
  size : x.1.size b.start = n
  /-- The sizes of the other blocks are as before. -/
  rest : ∀ c ∈ bs, x.1.size c.start = s.size c.start

/-- Taking a block from the list, or the end of one. -/
theorem FreeList.cut {prevp : ℕ} (h : FreeList L s gs bs) (hprev : prevp ∈ gs.map Span.start)
    (hn : 0 < n) (hfit : n ≤ s.size (s.ptr prevp)) :
    ∃ b, Taken L s bs n (s.cut prevp (s.ptr prevp) n) b := by
  have hbase : s.ptr prevp ≠ L.base := by
    intro hbase
    rw [hbase, h.size_base] at hfit
    omega
  obtain ⟨xs, g, f, ys, rfl, rfl, hf⟩ := h.exists_neighbours hprev hbase
  have hfsize := h.size f (by simp)
  have hfpos := h.pos f (by simp) (by rwa [hf])
  have hfin := h.within (g := f) (by simp) (by rwa [hf])
  have hbrk := h.brk_le
  have hlt := L.base_lt
  have hsorted := h.apart
  rw [List.pairwise_append, List.pairwise_cons, List.pairwise_cons] at hsorted
  obtain ⟨hxs, ⟨hgf, hfys, hyss⟩, hcross⟩ := hsorted
  unfold Heap.cut
  rw [← hf] at hfit ⊢
  by_cases hexact : s.size f.start = n
  · rw [if_pos hexact]
    have hsub : (xs ++ g :: ys).Sublist (xs ++ g :: f :: ys) :=
      ((List.sublist_cons_self f ys).cons_cons g).append_left xs
    have hapart := h.apart.sublist hsub
    refine ⟨f, ⟨xs ++ g :: ys, ?_⟩, rfl, by rw [hfsize, hexact], hexact, fun c _ => rfl⟩
    constructor
    · exact (head?_append_cons xs _ _ g).trans h.first
    · have hring : Circular s.ptr L.base
          (xs.map Span.start ++ g.start :: ([f.start] ++ ys.map Span.start)) := by
        simpa using h.ring
      have hfnext : s.ptr f.start = (ys.map Span.start).headD L.base := by
        have hh := h
        rw [← List.singleton_append, ← List.append_assoc] at hh
        exact hh.ptr_eq
      rw [List.map_append, List.map_cons]
      apply hring.splice [] (by simpa using nodup_starts hapart)
      · exact List.isChain_pair.mpr (by
          simp only [Heap.setPtr, Function.update_self, hfnext])
      · intro x hx
        obtain ⟨c, hc, rfl⟩ := List.mem_map.mp hx
        exact Function.update_of_ne (hcross c hc g List.mem_cons_self).start_lt.ne _ _
      · intro y hy
        obtain ⟨c, hc, rfl⟩ := List.mem_map.mp hy
        exact Function.update_of_ne (hgf c (List.mem_cons_of_mem _ hc)).start_lt.ne' _ _
    · simp
    · exact fun c hc => h.size c (hsub.subset hc)
    · exact hapart
    · exact fun c hc => h.pos c (hsub.subset hc)
    · intro c hc
      rcases List.mem_cons.mp hc with rfl | hc
      · exact hfpos
      · exact h.posRest c hc
    · apply h.tiles.congr
      intro c
      simp only [List.count_append, List.count_cons]
      omega
    · exact h.start_le
    · exact h.brk_le
  · rw [if_neg hexact]
    have hmore : sizeofHeader * n < f.len := by
      have hlt : n < s.size f.start := lt_of_le_of_ne hfit (Ne.symm hexact)
      rw [hfsize]
      exact Nat.mul_lt_mul_of_pos_left hlt (by decide)
    have hrest : f.len - sizeofHeader * n = sizeofHeader * (s.size f.start - n) := by
      rw [hfsize, Nat.mul_sub]
    have hnpos : 0 < sizeofHeader * n := Nat.mul_pos (by decide) hn
    have hheader : plus f.start (s.size f.start - n) =
        f.start + (f.len - sizeofHeader * n) := by
      have hkern := kernbase_lt
      have hstop := hfin.2
      unfold Span.stop at hstop
      unfold plus
      rw [← hrest]
      exact Nat.mod_eq_of_lt (by omega)
    have htiles : Tiles (⟨f.start + (f.len - sizeofHeader * n), sizeofHeader * n⟩ ::
        (xs ++ g :: ⟨f.start, f.len - sizeofHeader * n⟩ :: ys ++ bs)) L.start s.brk := by
      have hhead : Tiles (f :: (xs ++ g :: ys ++ bs)) L.start s.brk := by
        apply h.tiles.congr
        intro c
        simp only [List.count_append, List.count_cons]
        omega
      apply (hhead.split hmore.le).congr
      intro c
      simp only [List.count_append, List.count_cons]
      omega
    have hpos : ∀ c ∈ xs ++ g :: ⟨f.start, f.len - sizeofHeader * n⟩ :: ys,
        c.start ≠ L.base → 0 < c.len := by
      intro c hc hcbase
      simp only [List.mem_append, List.mem_cons] at hc
      rcases hc with hc | rfl | rfl | hc
      · exact h.pos c (by simp [hc]) hcbase
      · exact h.pos c (by simp) hcbase
      · exact Nat.sub_pos_of_lt hmore
      · exact h.pos c (by simp [hc]) hcbase
    -- the header of the block taken is not one of another block
    have hfresh : ∀ c ∈ xs ++ g :: ⟨f.start, f.len - sizeofHeader * n⟩ :: ys,
        c.start ≠ f.start + (f.len - sizeofHeader * n) := by
      intro c hc
      by_cases hcbase : c.start = L.base
      · omega
      · exact htiles.start_ne (List.mem_append_left _ hc) hnpos (hpos c hc hcbase)
    have hsize : ∀ c ∈ xs ++ g :: f :: ys, c.start ≠ f.start →
        c.start ≠ f.start + (f.len - sizeofHeader * n) →
        c.len = sizeofHeader * (Function.update (Function.update s.size f.start
          (s.size f.start - n)) (f.start + (f.len - sizeofHeader * n)) n) c.start := by
      intro c hc hne hne'
      rw [Function.update_of_ne hne', Function.update_of_ne hne]
      exact h.size c hc
    dsimp only [Heap.setSize]
    rw [Function.update_self, hheader]
    refine ⟨⟨f.start + (f.len - sizeofHeader * n), sizeofHeader * n⟩,
      ⟨xs ++ g :: ⟨f.start, f.len - sizeofHeader * n⟩ :: ys, ?_⟩, rfl, rfl,
      Function.update_self _ _ _, fun c hc => ?_⟩
    · constructor
      · exact (head?_append_cons xs _ _ g).trans h.first
      · have hring := h.ring
        rw [List.map_append, List.map_cons, List.map_cons] at hring ⊢
        exact hring
      · simp
      · intro c hc
        have hne := hfresh c hc
        simp only [List.mem_append, List.mem_cons] at hc
        rcases hc with hc | rfl | rfl | hc
        · exact hsize c (by simp [hc]) (hcross c hc f (by simp)).start_lt.ne hne
        · exact hsize c (by simp) (hgf f (by simp)).start_lt.ne hne
        · dsimp only at hne ⊢
          rw [Function.update_of_ne hne, Function.update_self]
          exact hrest
        · exact hsize c (by simp [hc]) (hfys c hc).start_lt.ne' hne
      · rw [List.pairwise_append, List.pairwise_cons, List.pairwise_cons]
        refine ⟨hxs, ⟨fun c hc => ?_, fun c hc => ?_, hyss⟩, fun x hx c hc => ?_⟩
        · rcases List.mem_cons.mp hc with rfl | hc
          · exact hgf f List.mem_cons_self
          · exact hgf c (List.mem_cons_of_mem _ hc)
        · have hfc := hfys c hc
          simp only [Apart, Span.stop] at hfc ⊢
          omega
        · simp only [List.mem_cons] at hc
          rcases hc with rfl | rfl | hc
          · exact hcross x hx c (by simp)
          · exact hcross x hx f (by simp)
          · exact hcross x hx c (by simp [hc])
      · exact hpos
      · intro c hc
        rcases List.mem_cons.mp hc with rfl | hc
        · exact hnpos
        · exact h.posRest c hc
      · exact htiles.perm List.perm_middle.symm
      · exact h.start_le
      · exact h.brk_le
    · have hnef : c.start ≠ f.start := (h.start_ne (g := f) (by simp) hc).symm
      have hneq := htiles.start_ne (List.mem_append_right _ hc) hnpos (h.posRest c hc)
      simp only
      rw [Function.update_of_ne hneq, Function.update_of_ne hnef]

/-! ## The loop of `malloc` -/

/-- One walk of `malloc` around the list, from the block after `q` to `freep`: it takes a block
that is large enough, or there is none and it calls `morecore`. The induction is on the blocks
still to come. -/
theorem mallocLoop_walk (grant : ℕ → Bool) (j : ℕ) {q : ℕ} {m : List ℕ} {k : ℕ}
    (hlinked : Linked s.ptr (q :: (m ++ [s.freep]))) (hfreep : s.freep ∉ m)
    (hk : m.length + 1 + j ≤ k) :
    (∃ prevp ∈ q :: m, n ≤ s.size (s.ptr prevp) ∧
      s.mallocLoop grant n k q (s.ptr q) = some (s.cut prevp (s.ptr prevp) n)) ∨
    ((∀ x ∈ m ++ [s.freep], s.size x < n) ∧ ∃ i, j ≤ i ∧
      s.mallocLoop grant n k q (s.ptr q) = (s.morecore grant n).bind fun x =>
        if x.2 = 0 then some x else x.1.mallocLoop grant n i x.2 (x.1.ptr x.2)) := by
  induction m generalizing q k with
  | nil =>
    obtain ⟨i, rfl⟩ : ∃ i, k = i + 1 := ⟨k - 1, by omega⟩
    have hnext : s.ptr q = s.freep := (List.isChain_cons_cons.mp hlinked).1
    by_cases hfit : n ≤ s.size (s.ptr q)
    · left
      exact ⟨q, List.mem_cons_self, hfit, by rw [Heap.mallocLoop, if_pos hfit]⟩
    · right
      refine ⟨?_, i, by simp only [List.length_nil] at hk; omega, ?_⟩
      · intro x hx
        obtain rfl := List.mem_singleton.mp hx
        rw [← hnext]
        omega
      · rw [Heap.mallocLoop, if_neg hfit, if_pos hnext]
  | cons c m ih =>
    obtain ⟨i, rfl⟩ : ∃ i, k = i + 1 := ⟨k - 1, by omega⟩
    obtain ⟨hnext, hrest⟩ := List.isChain_cons_cons.mp hlinked
    rw [List.mem_cons, not_or] at hfreep
    rw [List.length_cons] at hk
    by_cases hfit : n ≤ s.size (s.ptr q)
    · left
      exact ⟨q, List.mem_cons_self, hfit, by rw [Heap.mallocLoop, if_pos hfit]⟩
    · have hgo : s.mallocLoop grant n (i + 1) q (s.ptr q) =
          s.mallocLoop grant n i c (s.ptr c) := by
        rw [Heap.mallocLoop, if_neg hfit, hnext, if_neg (Ne.symm hfreep.1)]
      rw [hgo]
      rcases ih hrest hfreep.2 (by omega : m.length + 1 + j ≤ i) with
        ⟨prevp, hprev, htake⟩ | ⟨hnone, hmore⟩
      · exact Or.inl ⟨prevp, List.mem_cons_of_mem _ hprev, htake⟩
      · refine Or.inr ⟨fun x hx => ?_, hmore⟩
        rcases List.mem_cons.mp hx with rfl | hx
        · rw [← hnext]
          omega
        · exact hnone x hx

/-- A pointer into the list is not null. -/
theorem FreeList.freep_ne_zero (h : FreeList L s gs bs) : s.freep ≠ 0 := by
  obtain ⟨g, hg, heq⟩ := List.mem_map.mp h.rover
  have hle := h.base_le_start hg
  have hpos := L.base_pos
  omega

/-- The memory that `sbrk` has added is a block that is not free yet. -/
theorem FreeList.grow (h : FreeList L s gs bs) (hn : 0 < n)
    (hroom : s.brk + sizeofHeader * n ≤ kernbase) :
    FreeList L ({ s with brk := s.brk + sizeofHeader * n }.setSize s.brk n) gs
      (⟨s.brk, sizeofHeader * n⟩ :: bs) := by
  have hpos : 0 < sizeofHeader * n := Nat.mul_pos (by decide) hn
  constructor
  · exact h.first
  · exact h.ring
  · exact h.rover
  · intro g hg
    have hne : g.start ≠ s.brk := by
      by_cases hbase : g.start = L.base
      · have hlt := L.base_lt
        have hle := h.start_le
        omega
      · have hgpos := h.pos g hg hbase
        have hstop := h.stop_le hg
        simp only [Span.stop] at hstop
        omega
    simp only [Heap.setSize, Function.update_of_ne hne]
    exact h.size g hg
  · exact h.apart
  · exact h.pos
  · intro c hc
    rcases List.mem_cons.mp hc with rfl | hc
    · exact hpos
    · exact h.posRest c hc
  · exact (h.tiles.extend h.start_le _).perm List.perm_middle.symm
  · exact h.start_le.trans (Nat.le_add_right _ _)
  · exact hroom

/-- `morecore` fails, or puts a block into the list that is large enough. -/
theorem FreeList.morecore (h : FreeList L s gs bs) (grant : ℕ → Bool) (hn : n < 2 ^ 28) :
    s.morecore grant n = some (s, 0) ∨ ∃ s' gs', s.morecore grant n = some (s', s'.freep) ∧
      FreeList L s' gs' bs ∧ (∃ g ∈ gs', sizeofHeader * n ≤ g.len) ∧
      ∀ c ∈ bs, s'.size c.start = s.size c.start := by
  unfold Heap.morecore Heap.sbrk
  dsimp only
  generalize hnu : (if n < 4096 then 4096 else n) = nu
  have hbounds : 0 < nu ∧ n ≤ nu ∧ nu < 2 ^ 28 := by
    split_ifs at hnu <;> omega
  have hbytes : nu * sizeofHeader % 2 ^ 32 = sizeofHeader * nu := by
    rw [Nat.mul_comm]
    exact Nat.mod_eq_of_lt (by unfold sizeofHeader; omega)
  rw [hbytes]
  by_cases hgrant : grant s.brk = true ∧ s.brk + sizeofHeader * nu ≤ kernbase
  · right
    rw [if_pos hgrant]
    have hgrow := h.grow hbounds.1 hgrant.2
    have hsize : sizeofHeader * nu = sizeofHeader *
        ({ s with brk := s.brk + sizeofHeader * nu }.setSize s.brk nu).size s.brk := by
      simp only [Heap.setSize, Function.update_self]
    obtain ⟨s', gs', hfree, hlist, ⟨g, hg, hlen⟩, -, hrest⟩ := hgrow.free hsize
    refine ⟨s', gs', ?_, hlist, ⟨g, hg, ?_⟩, fun c hc => ?_⟩
    · simp only at hfree
      simp only [hfree, Option.map_some]
    · exact (Nat.mul_le_mul_left _ hbounds.2.1).trans hlen
    · rw [hrest c hc]
      have hne : c.start ≠ s.brk := by
        have hpos := h.posRest c hc
        have hstop := (h.within_rest hc).2
        simp only [Span.stop] at hstop
        omega
      simp only [Heap.setSize, Function.update_of_ne hne]
  · left
    rw [if_neg hgrant]

/-- A walk around the list from `freep`. -/
theorem FreeList.exists_walk (h : FreeList L s gs bs) : ∃ m,
    (∀ x, x ∈ s.freep :: m ↔ x ∈ gs.map Span.start) ∧ s.freep ∉ m ∧
      Linked s.ptr (s.freep :: (m ++ [s.freep])) ∧ m.length + 1 ≤ Heap.turns := by
  obtain ⟨m, hperm, hlinked⟩ := h.ring.walk h.rover
  have hnodup := List.nodup_cons.mp (hperm.nodup_iff.mpr h.ring.nodup)
  have hlength := hperm.length_eq
  rw [List.length_cons, List.length_map] at hlength
  exact ⟨m, fun x => hperm.mem_iff, hnodup.1, hlinked, hlength.trans_le h.length_le⟩

/-- What a walk says of the blocks it passes holds of the blocks of the list. -/
theorem FreeList.of_walk {m : List ℕ} {P : ℕ → Prop}
    (hmem : ∀ x, x ∈ s.freep :: m ↔ x ∈ gs.map Span.start)
    (hall : ∀ x ∈ m ++ [s.freep], P x) (hg : g ∈ gs) : P g.start := by
  apply hall
  have hwalk := (hmem g.start).mpr (List.mem_map_of_mem hg)
  simp only [List.mem_append, List.mem_cons] at hwalk ⊢
  tauto

/-- A block that is large enough is one of the list. -/
theorem FreeList.exists_of_fit {prevp : ℕ} (h : FreeList L s gs bs)
    (hprev : prevp ∈ gs.map Span.start) (hn : 0 < n) (hfit : n ≤ s.size (s.ptr prevp)) :
    ∃ g ∈ gs, n ≤ s.size g.start := by
  have hbase : s.ptr prevp ≠ L.base := by
    intro hbase
    rw [hbase, h.size_base] at hfit
    omega
  obtain ⟨xs, g, f, ys, rfl, -, hf⟩ := h.exists_neighbours hprev hbase
  exact ⟨f, by simp, by rwa [hf]⟩

/-- `malloc` returns 0 where no block is large enough and `morecore` fails, and takes a block
elsewhere: its loop ends after two walks at most. -/
theorem FreeList.mallocLoop (h : FreeList L s gs bs) (grant : ℕ → Bool) (hpos : 0 < n)
    (hn : n < 2 ^ 28) : ∃ x,
      s.mallocLoop grant n (2 * Heap.turns) s.freep (s.ptr s.freep) = some x ∧
        (((∀ g ∈ gs, s.size g.start < n) ∧ s.morecore grant n = some (s, 0)) ∧ x = (s, 0) ∨
          ¬ ((∀ g ∈ gs, s.size g.start < n) ∧ s.morecore grant n = some (s, 0)) ∧
            ∃ b, Taken L s bs n x b) := by
  obtain ⟨m, hmem, hfreep, hlinked, hlength⟩ := h.exists_walk
  rcases mallocLoop_walk grant Heap.turns (n := n) hlinked hfreep
    (by omega : m.length + 1 + Heap.turns ≤ 2 * Heap.turns) with
    ⟨prevp, hprev, hfit, heq⟩ | ⟨hsmall, i, hi, heq⟩
  · obtain ⟨g, hg, hlarge⟩ := h.exists_of_fit ((hmem prevp).mp hprev) hpos hfit
    refine ⟨_, heq, Or.inr ⟨fun hnone => ?_, h.cut ((hmem prevp).mp hprev) hpos hfit⟩⟩
    have hlt := hnone.1 g hg
    omega
  rw [heq]
  rcases h.morecore grant hn with hfail | ⟨s', gs', hmore, hlist, ⟨g, hg, hlen⟩, hrest⟩
  · refine ⟨(s, 0), by rw [hfail, Option.bind_some, if_pos rfl], Or.inl ⟨⟨?_, hfail⟩, rfl⟩⟩
    exact fun g hg => FreeList.of_walk hmem hsmall hg
  have hnull := hlist.freep_ne_zero
  rw [hmore, Option.bind_some, if_neg hnull]
  dsimp only
  -- the block that has been put in is found
  obtain ⟨m', hmem', hfreep', hlinked', hlength'⟩ := hlist.exists_walk
  rcases mallocLoop_walk grant 0 (n := n) hlinked' hfreep'
    (by omega : m'.length + 1 + 0 ≤ i) with ⟨prevp, hprev, hfit, heq'⟩ | ⟨hnone, -⟩
  · obtain ⟨b, hb⟩ := hlist.cut ((hmem' prevp).mp hprev) hpos hfit
    refine ⟨_, heq', Or.inr ⟨fun hfail => ?_, b, hb.list, hb.result, hb.len, hb.size,
      fun c hc => ?_⟩⟩
    · have hzero := congrArg Prod.snd (Option.some.inj hfail.2)
      exact hnull hzero
    · rw [hb.rest c hc, hrest c hc]
  · exfalso
    have hlt : s'.size g.start < n := FreeList.of_walk hmem' hnone hg
    rw [hlist.size g hg] at hlen
    unfold sizeofHeader at hlen
    omega

/-! ## Runs -/

/-- The memory of a block that the program holds, with its header. -/
def Block.span (s : Heap) (b : Block) : Span := ⟨b.header, sizeofHeader * s.size b.header⟩

/-- What the program has been given for a call of `malloc`. -/
structure Block.Usable (s : Heap) (b : Block) : Prop where
  /-- The pointer is to what comes after the header. -/
  pointer : b.ap = b.header + sizeofHeader
  /-- There are as many bytes as it has asked for. -/
  bytes : b.ap + b.nbytes ≤ (b.span s).stop

/-- What holds in every state of a run. -/
def Inv (L : Layout) (s : State) : Prop :=
  (s.heap.freep = 0 ∧ s.live = [] ∧ s.heap.brk = L.start) ∨
    ((∃ gs, FreeList L s.heap gs (s.live.map (Block.span s.heap))) ∧
      ∀ b ∈ s.live, b.Usable s.heap)

/-- The blocks held are as before if their sizes are. -/
theorem span_congr {live : List Block}
    (hsize : ∀ c ∈ live.map (Block.span s), s'.size c.start = s.size c.start) :
    live.map (Block.span s') = live.map (Block.span s) ∧
      ∀ b ∈ live, b.Usable s → b.Usable s' := by
  have hspan : ∀ b ∈ live, b.span s' = b.span s := by
    intro b hb
    have hb := hsize (b.span s) (List.mem_map_of_mem hb)
    unfold Block.span at hb ⊢
    rw [hb]
  refine ⟨List.map_congr_left hspan, fun b hb husable => ⟨husable.pointer, ?_⟩⟩
  rw [hspan b hb]
  exact husable.bytes

/-- The number of units is small and holds the header and the bytes. -/
theorem units_bounds {nbytes : ℕ} (hsmall : nbytes ≤ 2 ^ 31 - 16) :
    (0 < Heap.units nbytes ∧ Heap.units nbytes < 2 ^ 28) ∧
      sizeofHeader + nbytes ≤ sizeofHeader * Heap.units nbytes := by
  unfold Heap.units sizeofHeader
  rw [Nat.mod_eq_of_lt (by omega)]
  omega

/-- The list that the first call of `malloc` makes. -/
theorem freeList_init (hfreep : s.freep = 0) (hbrk : s.brk = L.start) :
    FreeList L (s.init L) [⟨L.base, 0⟩] [] := by
  unfold Heap.init
  rw [if_pos hfreep]
  constructor
  · simp
  · refine ⟨by simp, by simp, List.isChain_pair.mpr ?_⟩
    simp only [Heap.setPtr, Heap.setSize, Function.update_self]
  · simp
  · simp [Heap.setPtr, Heap.setSize]
  · simp
  · simp
  · simp
  · simp only [List.append_nil, Heap.setPtr, Heap.setSize, hbrk]
    exact (tiles_cons_empty _).mpr (Tiles.nil _)
  · simp only [Heap.setPtr, Heap.setSize, hbrk, le_refl]
  · simp only [Heap.setPtr, Heap.setSize, hbrk]
    exact L.start_le

/-- From the first call of `malloc` on there is a list. -/
theorem Inv.freeList {t : State} (h : Inv L t) :
    (∃ gs, FreeList L (t.heap.init L) gs (t.live.map (Block.span (t.heap.init L)))) ∧
      ∀ b ∈ t.live, b.Usable (t.heap.init L) := by
  rcases h with ⟨hfreep, hlive, hbrk⟩ | ⟨⟨gs, hlist⟩, husable⟩
  · rw [hlive]
    exact ⟨⟨_, freeList_init hfreep hbrk⟩, by simp⟩
  · have hinit : t.heap.init L = t.heap := by
      unfold Heap.init
      rw [if_neg hlist.freep_ne_zero]
    rw [hinit]
    exact ⟨⟨gs, hlist⟩, husable⟩

/-- The pointer to a block that has been taken. -/
theorem Taken.pointer {x : Heap × ℕ} (hb : Taken L s bs n x b) :
    x.2 = b.start + sizeofHeader := by
  obtain ⟨gs', hlist⟩ := hb.list
  have hpos := hlist.posRest b List.mem_cons_self
  have hstop := (hlist.within_rest (b := b) List.mem_cons_self).2
  have hbrk := hlist.brk_le
  have hkern := kernbase_lt
  have hlen := hb.len
  rw [hb.result]
  unfold plus
  unfold Span.stop at hstop
  unfold sizeofHeader at *
  rw [Nat.mod_eq_of_lt (by omega)]

/-- The block of the program that has been taken. -/
theorem Taken.span_eq {x : Heap × ℕ} (hb : Taken L s bs n x b) (nbytes : ℕ) :
    (⟨x.2, nbytes⟩ : Block).header = b.start ∧ (⟨x.2, nbytes⟩ : Block).span x.1 = b := by
  have hheader : (⟨x.2, nbytes⟩ : Block).header = b.start := by
    unfold Block.header
    rw [hb.pointer]
    exact Nat.add_sub_cancel _ _
  refine ⟨hheader, ?_⟩
  unfold Block.span
  rw [hheader, hb.size, ← hb.len]

/-- A block that has been taken has the bytes of its units behind the header. -/
theorem Taken.usable_iff {x : Heap × ℕ} (hb : Taken L s bs n x b) (nbytes : ℕ) :
    (⟨x.2, nbytes⟩ : Block).Usable x.1 ↔ sizeofHeader + nbytes ≤ sizeofHeader * n := by
  obtain ⟨hheader, hspan⟩ := hb.span_eq nbytes
  have hap := hb.pointer
  have hlen := hb.len
  constructor
  · intro huse
    have hbytes := huse.bytes
    rw [hspan, Span.stop] at hbytes
    simp only at hbytes
    omega
  · intro hbytes
    refine ⟨by rw [hheader, ← hap], ?_⟩
    rw [hspan, Span.stop]
    simp only
    omega

/-- The program holds the block that has been taken. -/
theorem Taken.inv {x : Heap × ℕ} {live : List Block} {nbytes : ℕ}
    (hb : Taken L s (live.map (Block.span s)) n x b) (husable : ∀ c ∈ live, c.Usable s)
    (hbytes : sizeofHeader + nbytes ≤ sizeofHeader * n) :
    x.2 ≠ 0 ∧ Inv L ⟨x.1, ⟨x.2, nbytes⟩ :: live⟩ := by
  obtain ⟨gs', hlist⟩ := hb.list
  obtain ⟨hmap, huse⟩ := span_congr hb.rest
  have hne : x.2 ≠ 0 := by
    rw [hb.pointer]
    exact Nat.succ_ne_zero _
  refine ⟨hne, Or.inr ⟨⟨gs', ?_⟩, ?_⟩⟩
  · rw [List.map_cons, (hb.span_eq nbytes).2, hmap]
    exact hlist
  · intro c hc
    rcases List.mem_cons.mp hc with rfl | hc
    · exact (hb.usable_iff nbytes).mpr hbytes
    · exact huse c hc (husable c hc)

/-- A call of `malloc` for less than half of the address space ends, keeps the heap sound, and
returns 0 or a block that is large enough. -/
theorem Inv.mallocHeap {t : State} (h : Inv L t) {nbytes : ℕ} (grant : ℕ → Bool)
    (hsmall : nbytes ≤ 2 ^ 31 - 16) : ∃ x, t.heap.malloc L grant nbytes = some x ∧
      (x.2 = 0 ∨ (⟨x.2, nbytes⟩ : Block).Usable x.1) ∧
      Inv L ⟨x.1, if x.2 = 0 then t.live else ⟨x.2, nbytes⟩ :: t.live⟩ := by
  obtain ⟨⟨hpos, hunits⟩, hbytes⟩ := units_bounds hsmall
  obtain ⟨⟨gs, hlist⟩, husable⟩ := h.freeList
  obtain ⟨x, hx, hresult⟩ := hlist.mallocLoop grant hpos hunits
  refine ⟨x, hx, ?_⟩
  rcases hresult with ⟨-, rfl⟩ | ⟨-, b, hb⟩
  · exact ⟨Or.inl rfl, Or.inr ⟨⟨gs, hlist⟩, husable⟩⟩
  · obtain ⟨hne, hinv⟩ := hb.inv husable hbytes
    rw [if_neg hne]
    exact ⟨Or.inr ((hb.usable_iff nbytes).mpr hbytes), hinv⟩

/-- A call of `malloc` ends, and keeps the heap sound. -/
theorem Inv.malloc {t : State} (h : Inv L t) {nbytes : ℕ} (grant : ℕ → Bool)
    (hsmall : nbytes < 2 ^ 30) : ∃ t', step L t (.malloc nbytes grant) = some t' ∧ Inv L t' := by
  have hle : nbytes ≤ 2 ^ 31 - 16 := by omega
  obtain ⟨x, hx, -, hinv⟩ := h.mallocHeap grant hle
  refine ⟨_, ?_, hinv⟩
  simp only [step, if_pos hsmall, hx, Option.map_some]

/-- A call of `free` with a block that the program holds ends, and keeps the heap sound. -/
theorem Inv.free {t : State} (h : Inv L t) {b : Block} (hb : b ∈ t.live) :
    ∃ t', step L t (.free b) = some t' ∧ Inv L t' := by
  rcases h with ⟨-, hlive, -⟩ | ⟨⟨gs, hlist⟩, husable⟩
  · rw [hlive] at hb
    cases hb
  have hperm : (b.span t.heap :: (t.live.erase b).map (Block.span t.heap)).Perm
      (t.live.map (Block.span t.heap)) :=
    ((List.perm_cons_erase hb).map (Block.span t.heap)).symm
  have hlist' : FreeList L t.heap gs
      (b.span t.heap :: (t.live.erase b).map (Block.span t.heap)) :=
    { hlist with
      posRest := fun c hc => hlist.posRest c (hperm.mem_iff.mp hc)
      tiles := hlist.tiles.perm (hperm.symm.append_left gs) }
  obtain ⟨s', gs', hfree, hlist'', -, -, hrest⟩ := hlist'.free rfl
  obtain ⟨hmap, huse⟩ := span_congr hrest
  have hap : plus (b.span t.heap).start 1 = b.ap := by
    have hpos := hlist'.posRest (b.span t.heap) List.mem_cons_self
    have hstop := (hlist'.within_rest (b := b.span t.heap) List.mem_cons_self).2
    have hbrk := hlist'.brk_le
    have hkern := kernbase_lt
    have hpointer := (husable b hb).pointer
    simp only [Block.span, Span.stop, sizeofHeader] at hpos hstop hpointer
    unfold plus Block.span sizeofHeader
    dsimp only
    rw [Nat.mod_eq_of_lt (by omega)]
    omega
  rw [hap] at hfree
  refine ⟨⟨s', t.live.erase b⟩, ?_, Or.inr ⟨⟨gs', ?_⟩, ?_⟩⟩
  · simp only [step, if_pos hb, hfree, Option.map_some]
  · simp only
    rw [hmap]
    exact hlist''
  · intro c hc
    exact huse c hc (husable c (List.mem_of_mem_erase hc))

/-- Only the headers of the list matter. -/
theorem FreeList.congr (h : FreeList L s gs bs)
    (hptr : ∀ g ∈ gs, s'.ptr g.start = s.ptr g.start)
    (hsize : ∀ g ∈ gs, s'.size g.start = s.size g.start) (hfreep : s'.freep = s.freep)
    (hbrk : s'.brk = s.brk) : FreeList L s' gs bs := by
  constructor
  · exact h.first
  · apply h.ring.congr
    intro x hx
    obtain ⟨g, hg, rfl⟩ := List.mem_map.mp hx
    exact hptr g hg
  · rw [hfreep]
    exact h.rover
  · intro g hg
    rw [hsize g hg]
    exact h.size g hg
  · exact h.apart
  · exact h.pos
  · exact h.posRest
  · rw [hbrk]
    exact h.tiles
  · rw [hbrk]
    exact h.start_le
  · rw [hbrk]
    exact h.brk_le

/-- What the program stores in a block that it holds is not in a header. -/
theorem FreeList.header_ne {live : List Block} {b : Block} {a : ℕ}
    (h : FreeList L s gs (live.map (Block.span s))) (hb : b ∈ live) (hpointer : b.Usable s)
    (ha : b.ap ≤ a) (hstop : a + sizeofHeader ≤ (b.span s).stop) :
    (∀ g ∈ gs, g.start ≠ a) ∧ ∀ c ∈ live, c.header ≠ a := by
  have hmem : b.span s ∈ live.map (Block.span s) := List.mem_map_of_mem hb
  have hin := h.within_rest hmem
  have hlt := L.base_lt
  have hap := hpointer.pointer
  have hheader : (b.span s).start = b.header := rfl
  have hpos : 0 < sizeofHeader := by decide
  constructor
  · intro g hg heq
    by_cases hbase : g.start = L.base
    · omega
    · have hgpos := h.pos g hg hbase
      rcases h.disjoint hg hmem with hle | hle
      · simp only [Span.stop] at hle
        omega
      · omega
  · intro c hc heq
    by_cases hcb : c = b
    · rw [hcb] at heq
      omega
    · have hperm : (gs ++ live.map (Block.span s)).Perm
          (b.span s :: (gs ++ (live.erase b).map (Block.span s))) :=
        (((List.perm_cons_erase hb).map (Block.span s)).append_left gs).trans List.perm_middle
      have hcmem : c.span s ∈ gs ++ (live.erase b).map (Block.span s) :=
        List.mem_append_right _ (List.mem_map_of_mem ((List.mem_erase_of_ne hcb).mpr hc))
      have hcpos := h.posRest _ (List.mem_map_of_mem hc : c.span s ∈ _)
      have hcstart : (c.span s).start = c.header := rfl
      rcases (h.tiles.perm hperm).disjoint_of_mem hcmem (h.posRest _ hmem) hcpos with hle | hle
      · omega
      · simp only [Span.stop] at hle
        omega

/-- What the program stores in its blocks does not matter. -/
theorem Inv.store {t t' : State} (h : Inv L t) {b : Block} {a first second : ℕ}
    (hstep : step L t (.store b a first second) = some t') : Inv L t' := by
  simp only [step] at hstep
  split at hstep
  case isFalse => cases hstep
  case isTrue hstore =>
    cases hstep
    obtain ⟨hb, ha, hstop⟩ := hstore
    rcases h with ⟨-, hlive, -⟩ | ⟨⟨gs, hlist⟩, husable⟩
    · rw [hlive] at hb
      cases hb
    obtain ⟨hfree, hlive⟩ := hlist.header_ne hb (husable b hb) ha hstop
    have hsize : ∀ c ∈ t.live.map (Block.span t.heap),
        ((t.heap.setPtr a first).setSize a second).size c.start = t.heap.size c.start := by
      intro c hc
      obtain ⟨d, hd, rfl⟩ := List.mem_map.mp hc
      exact Function.update_of_ne (hlive d hd) _ _
    obtain ⟨hmap, huse⟩ := span_congr hsize
    refine Or.inr ⟨⟨gs, ?_⟩, fun c hc => huse c hc (husable c hc)⟩
    rw [hmap]
    refine hlist.congr ?_ ?_ rfl rfl
    · exact fun g hg => Function.update_of_ne (hfree g hg) _ _
    · exact fun g hg => Function.update_of_ne (hfree g hg) _ _

/-- What holds in every state a run reaches. -/
theorem run_inv {trace : List Action} {t : State}
    (hrun : Run (step L) GuardedRun.free (State.start L) trace t) : Inv L t := by
  refine hrun.invariant (I := fun _ t => Inv L t) (Or.inl ⟨rfl, rfl, rfl⟩) ?_
  intro trace t a t' h _ hstep
  cases a with
  | malloc nbytes grant =>
    have hsmall : nbytes < 2 ^ 30 := by
      by_contra hlarge
      rw [step, if_neg hlarge] at hstep
      cases hstep
    obtain ⟨u, hu, hinv⟩ := h.malloc grant hsmall
    rw [hstep] at hu
    cases hu
    exact hinv
  | free b =>
    have hb : b ∈ t.live := by
      by_contra hno
      rw [step, if_neg hno] at hstep
      cases hstep
    obtain ⟨u, hu, hinv⟩ := h.free hb
    rw [hstep] at hu
    cases hu
    exact hinv
  | store b a first second => exact h.store hstep

/-- The user heap stays sound, in every run of `malloc` and `free`, whatever `sbrk` answers and
whatever the program stores in its blocks. Once there is a list, it is circular, in the order
of the addresses from `base` on; no two free blocks touch; the free blocks and the blocks held
are disjoint and make up the memory obtained; a block held has room for the bytes asked for;
and every call of `malloc` for less than 2^30 bytes, and of `free` with a block that is held,
ends. -/
theorem heap_sound {trace : List Action} {t : State}
    (hrun : Run (step L) GuardedRun.free (State.start L) trace t) :
    ((t.heap.freep = 0 ∧ t.live = [] ∧ t.heap.brk = L.start) ∨
      ∃ fs : List Span,
        Circular t.heap.ptr L.base (L.base :: fs.map Span.start) ∧
        t.heap.freep ∈ L.base :: fs.map Span.start ∧
        (L.base :: fs.map Span.start).Pairwise (· < ·) ∧
        t.heap.size L.base = 0 ∧
        (∀ g ∈ fs, g.len = sizeofHeader * t.heap.size g.start) ∧
        fs.Pairwise Apart ∧
        (∀ a ∈ fs ++ t.live.map (Block.span t.heap), 0 < a.len) ∧
        (fs ++ t.live.map (Block.span t.heap)).Pairwise Span.Disjoint ∧
        ∀ x, (∃ a ∈ fs ++ t.live.map (Block.span t.heap), a.Has x) ↔
          L.start ≤ x ∧ x < t.heap.brk) ∧
    (∀ b ∈ t.live, b.Usable t.heap) ∧
    (∀ nbytes < 2 ^ 30, ∀ grant, ∃ t', step L t (.malloc nbytes grant) = some t') ∧
    ∀ b ∈ t.live, ∃ t', step L t (.free b) = some t' := by
  have h := run_inv hrun
  refine ⟨?_, ?_, ?_, ?_⟩
  · rcases h with hempty | ⟨⟨gs, hlist⟩, -⟩
    · exact Or.inl hempty
    right
    obtain ⟨fs, rfl⟩ : ∃ fs, gs = ⟨L.base, 0⟩ :: fs := by
      have hfirst := hlist.first
      cases gs with
      | nil => cases hfirst
      | cons f fs => exact ⟨fs, by simpa using hfirst⟩
    have hapart := List.pairwise_cons.mp hlist.apart
    have hpos : ∀ a ∈ fs ++ t.live.map (Block.span t.heap), 0 < a.len := by
      intro a ha
      rcases List.mem_append.mp ha with hfree | hlive
      · exact hlist.pos a (List.mem_cons_of_mem _ hfree) (hapart.1 a hfree).start_lt.ne'
      · exact hlist.posRest a hlive
    have htiles : Tiles (fs ++ t.live.map (Block.span t.heap)) L.start t.heap.brk :=
      (tiles_cons_empty L.base).mp hlist.tiles
    refine ⟨fs, hlist.ring, hlist.rover, ?_, hlist.size_base, ?_, hapart.2, hpos,
      htiles.pairwise hpos, htiles.mem_iff⟩
    · have hsorted : ((⟨L.base, 0⟩ :: fs : List Span).map Span.start).Pairwise (· < ·) :=
        List.pairwise_map.mpr (hlist.apart.imp fun hab => hab.start_lt)
      exact hsorted
    · exact fun g hg => hlist.size g (List.mem_cons_of_mem _ hg)
  · rcases h with ⟨-, hlive, -⟩ | ⟨-, husable⟩
    · simp [hlive]
    · exact husable
  · intro nbytes hsmall grant
    obtain ⟨t', hstep, -⟩ := h.malloc grant hsmall
    exact ⟨t', hstep⟩
  · intro b hb
    obtain ⟨t', hstep, -⟩ := h.free hb
    exact ⟨t', hstep⟩

/-- A program loaded below address 0x3000, with `base` at 0x1000. -/
def sampleLayout : Layout := ⟨0x1000, 0x3000, by decide, by decide, by decide⟩

/-- Two blocks are taken from one page of units and the first is freed: the end of the memory
has been moved once, and the block still held is usable. -/
theorem heap_sound_two : ∃ t : State,
    (t.heap.brk = 0xb000 ∧ t.live = [⟨0xaf78, 20⟩]) ∧ ∀ b ∈ t.live, b.Usable t.heap := by
  have hexec : ∃ t, exec (step sampleLayout) GuardedRun.free [] (State.start sampleLayout)
      [.malloc 100 fun _ => true, .malloc 20 fun _ => false, .free ⟨0xaf98, 100⟩] = some t ∧
      t.heap.brk = 0xb000 ∧ t.live = [⟨0xaf78, 20⟩] := ⟨_, rfl, by decide, by decide⟩
  obtain ⟨t, hexec, hshape⟩ := hexec
  exact ⟨t, hshape, (heap_sound (run_of_exec hexec)).2.1⟩

end Xv6.UserHeap
