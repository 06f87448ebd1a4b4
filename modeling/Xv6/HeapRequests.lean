import Xv6.HeapRuns

/-!
# Requests of any size

`malloc` for any 32-bit number of bytes, with the calls of `sbrk` that it makes. The amount that
`morecore` computes is passed as an `int`, so that it is not positive for a block of half of the
address space or more. For the last seven numbers of bytes the sum that rounds them up wraps
around, and one unit is asked for, which is the header.

A negative amount takes memory away from the process; that it may stop at its next access to
that memory is left out.
-/

namespace Xv6.UserHeap

open GuardedRun Span

/-- A call of `sbrk` by `morecore`. -/
structure Request where
  /-- The amount, as the system call takes it. -/
  amount : ℤ
  /-- The bytes of the block that `morecore` then puts into the free list. -/
  added : ℕ

/-- The amount is positive, and there is no more in the free list than has been obtained. -/
def Request.Covered (r : Request) : Prop := 0 < r.amount ∧ r.added ≤ r.amount

namespace Heap

/-- `sbrk` with an `int`: the end of the memory is moved by `growproc`, down to `newsz` only if
that is below it. -/
def sbrkInt (s : Heap) (grant : ℕ → Bool) (n : ℤ) : Option (Heap × ℕ) :=
  if 0 < n then s.sbrk grant n.toNat
  else if n < 0 then
    let newsz := wrapUint (s.brk + n)
    let sz := if s.brk ≤ newsz then s.brk else newsz
    if sz = 0 then none else some ({ s with brk := sz }, s.brk)
  else some (s, s.brk)

/-- `morecore` from its call of `sbrk` on. -/
def morecoreSbrk (s : Heap) (grant : ℕ → Bool) (nu : ℕ) (amount : ℤ) :
    Request × Option (Heap × ℕ) :=
  match s.sbrkInt grant amount with
  | none => (⟨amount, 0⟩, some (s, 0))
  | some (s, hp) =>
    (⟨amount, sizeofHeader * nu⟩,
      ((s.setSize hp nu).free (plus hp 1)).map fun s => (s, s.freep))

/-- `morecore`, with its call of `sbrk`. -/
def morecoreInt (s : Heap) (grant : ℕ → Bool) (nu : ℕ) : Request × Option (Heap × ℕ) :=
  let nu := if nu < 4096 then 4096 else nu
  s.morecoreSbrk grant nu (wrapInt (nu * sizeofHeader : ℕ))

/-- What the loop of `malloc` does after a call of `morecore`: it returns 0, or goes on. -/
def afterMorecore (y : Request × Option (Heap × ℕ))
    (next : Heap × ℕ → List Request × Option (Heap × ℕ)) : List Request × Option (Heap × ℕ) :=
  match y.2 with
  | none => ([y.1], none)
  | some x => if x.2 = 0 then ([y.1], some x) else (y.1 :: (next x).1, (next x).2)

/-- The loop of `malloc`, in a bounded number of turns, with the calls of `sbrk`. -/
def mallocLoopInt (grant : ℕ → Bool) (nunits : ℕ) :
    ℕ → Heap → ℕ → ℕ → List Request × Option (Heap × ℕ)
  | 0, _, _, _ => ([], none)
  | k + 1, s, prevp, p =>
    if nunits ≤ s.size p then ([], some (s.cut prevp p nunits))
    else if p = s.freep then
      afterMorecore (s.morecoreInt grant nunits) fun x =>
        mallocLoopInt grant nunits k x.1 x.2 (x.1.ptr x.2)
    else mallocLoopInt grant nunits k s p (s.ptr p)

/-- `malloc`, with the calls of `sbrk`. -/
def mallocInt (s : Heap) (L : Layout) (grant : ℕ → Bool) (nbytes : ℕ) :
    List Request × Option (Heap × ℕ) :=
  let s := s.init L
  mallocLoopInt grant (units nbytes) (2 * turns) s s.freep (s.ptr s.freep)

end Heap

/-- A call of `malloc` ends, returns 0 or a block that is large enough, and asks `sbrk` for what
it puts into the free list. -/
def Safe (L : Layout) (s : Heap) (grant : ℕ → Bool) (nbytes : ℕ) : Prop :=
  (∀ r ∈ (s.mallocInt L grant nbytes).1, r.Covered) ∧
    ∃ x, (s.mallocInt L grant nbytes).2 = some x ∧
      (x.2 = 0 ∨ (⟨x.2, nbytes⟩ : Block).Usable x.1)

/-- The number of bytes is less than half of the address space by two headers, or it is one of the
last seven, no block is free, and `sbrk` refuses. -/
def Fits (L : Layout) (s : Heap) (grant : ℕ → Bool) (nbytes : ℕ) : Prop :=
  nbytes ≤ 2 ^ 31 - 16 ∨
    2 ^ 32 - 7 ≤ nbytes ∧ (s.init L).ptr L.base = L.base ∧
      s.sbrk grant (4096 * sizeofHeader) = none

/-- The steps of a program that asks for any number of bytes. -/
def stepAny (L : Layout) (s : State) : Action → Option State
  | .malloc nbytes grant =>
    if nbytes < 2 ^ 32 then
      (s.heap.mallocInt L grant nbytes).2.map fun x =>
        ⟨x.1, if x.2 = 0 then s.live else ⟨x.2, nbytes⟩ :: s.live⟩
    else none
  | a => step L s a

/-- The guard that admits the calls of `malloc` that fit. -/
def fitting (L : Layout) : List Action → State → Action → Prop
  | _, s, .malloc nbytes grant => Fits L s.heap grant nbytes
  | _, _, _ => True

variable {L : Layout} {s : Heap} {gs bs : List Span} {n : ℕ}

/-! ## Small requests -/

/-- The amount of a block below half of the address space is passed as it is. -/
theorem morecoreInt_eq (s : Heap) (grant : ℕ → Bool) (hn : n < 2 ^ 28) :
    ∃ r : Request, r.Covered ∧ s.morecoreInt grant n = (r, s.morecore grant n) := by
  unfold Heap.morecoreInt Heap.morecore
  dsimp only
  generalize hnu : (if n < 4096 then 4096 else n) = nu
  have hbounds : 0 < nu ∧ nu < 2 ^ 28 := by
    split_ifs at hnu <;> omega
  have hbytes : nu * sizeofHeader % 2 ^ 32 = nu * sizeofHeader :=
    Nat.mod_eq_of_lt (by unfold sizeofHeader; omega)
  have hpos : (0 : ℤ) < (nu * sizeofHeader : ℕ) := by
    unfold sizeofHeader
    omega
  have hamount : wrapInt (nu * sizeofHeader : ℕ) = (nu * sizeofHeader : ℕ) :=
    wrapInt_of_mem (by omega) (by unfold sizeofHeader intMax; omega)
  have hsbrk : s.sbrkInt grant (nu * sizeofHeader : ℕ) = s.sbrk grant (nu * sizeofHeader) := by
    rw [Heap.sbrkInt, if_pos hpos, Int.toNat_natCast]
  rw [hamount, hbytes, Heap.morecoreSbrk, hsbrk]
  rcases s.sbrk grant (nu * sizeofHeader) with _ | ⟨s', hp⟩
  · exact ⟨⟨_, 0⟩, ⟨hpos, Int.natCast_nonneg (nu * sizeofHeader)⟩, rfl⟩
  · have hadded : sizeofHeader * nu = nu * sizeofHeader := Nat.mul_comm _ _
    dsimp only
    refine ⟨⟨_, sizeofHeader * nu⟩, ⟨hpos, ?_⟩, rfl⟩
    rw [hadded]

/-- The loop of `malloc` for a block below half of the address space. -/
theorem mallocLoopInt_eq (grant : ℕ → Bool) (hn : n < 2 ^ 28) (k : ℕ) (s : Heap) (prevp p : ℕ) :
    (∀ r ∈ (s.mallocLoopInt grant n k prevp p).1, r.Covered) ∧
      (s.mallocLoopInt grant n k prevp p).2 = s.mallocLoop grant n k prevp p := by
  induction k generalizing s prevp p with
  | zero => simp [Heap.mallocLoopInt, Heap.mallocLoop]
  | succ k ih =>
    rw [Heap.mallocLoopInt, Heap.mallocLoop]
    by_cases hfit : n ≤ s.size p
    · simp [if_pos hfit]
    rw [if_neg hfit, if_neg hfit]
    by_cases hlast : p = s.freep
    · rw [if_pos hlast, if_pos hlast]
      obtain ⟨r, hcovered, heq⟩ := morecoreInt_eq s grant hn
      rw [heq]
      cases s.morecore grant n with
      | none => simpa [Heap.afterMorecore] using hcovered
      | some x =>
        dsimp only [Heap.afterMorecore, Option.bind_some]
        by_cases hnull : x.2 = 0
        · rw [if_pos hnull, if_pos hnull]
          simpa using hcovered
        · rw [if_neg hnull, if_neg hnull]
          obtain ⟨hrest, hsame⟩ := ih x.1 x.2 (x.1.ptr x.2)
          exact ⟨List.forall_mem_cons.mpr ⟨hcovered, hrest⟩, hsame⟩
    · rw [if_neg hlast, if_neg hlast]
      exact ih s p (s.ptr p)

/-- `malloc` for a block below half of the address space. -/
theorem mallocInt_eq (s : Heap) (L : Layout) (grant : ℕ → Bool) {nbytes : ℕ}
    (hunits : Heap.units nbytes < 2 ^ 28) :
    (∀ r ∈ (s.mallocInt L grant nbytes).1, r.Covered) ∧
      (s.mallocInt L grant nbytes).2 = s.malloc L grant nbytes := by
  unfold Heap.mallocInt Heap.malloc
  exact mallocLoopInt_eq grant hunits (2 * Heap.turns) (s.init L) (s.init L).freep
    ((s.init L).ptr (s.init L).freep)

/-! ## Large requests -/

/-- What is passed is the amount. -/
theorem morecoreSbrk_amount (s : Heap) (grant : ℕ → Bool) (nu : ℕ) (amount : ℤ) :
    (s.morecoreSbrk grant nu amount).1.amount = amount := by
  unfold Heap.morecoreSbrk
  split <;> rfl

/-- The amount of a block of half of the address space or more is not positive. -/
theorem morecoreInt_not_covered (s : Heap) (grant : ℕ → Bool) (hlow : 2 ^ 28 ≤ n)
    (hhigh : n ≤ 2 ^ 29) : ¬ (s.morecoreInt grant n).1.Covered := by
  have hunits : (if n < 4096 then 4096 else n) = n := if_neg (by omega)
  have hamount : wrapInt (n * sizeofHeader : ℕ) ≤ 0 := by
    unfold wrapInt sizeofHeader
    rw [Int.bmod_def]
    split <;> omega
  rintro ⟨hpos, -⟩
  rw [Heap.morecoreInt, hunits, morecoreSbrk_amount] at hpos
  omega

/-- Where no block is large enough, `malloc` calls `morecore`. -/
theorem mallocLoopInt_asks (grant : ℕ → Bool) {q : ℕ} {m : List ℕ} {k : ℕ}
    (hlinked : Linked s.ptr (q :: (m ++ [s.freep]))) (hk : m.length < k)
    (hnone : ∀ x ∈ m ++ [s.freep], s.size x < n) :
    (s.morecoreInt grant n).1 ∈ (s.mallocLoopInt grant n k q (s.ptr q)).1 := by
  have hasks (y : Request × Option (Heap × ℕ)) (next) : y.1 ∈ (Heap.afterMorecore y next).1 := by
    unfold Heap.afterMorecore
    split
    · exact List.mem_singleton_self _
    · split
      · exact List.mem_singleton_self _
      · exact List.mem_cons_self
  induction m generalizing q k with
  | nil =>
    obtain ⟨i, rfl⟩ : ∃ i, k = i + 1 := ⟨k - 1, by rw [List.length_nil] at hk; omega⟩
    have hnext : s.ptr q = s.freep := (List.isChain_cons_cons.mp hlinked).1
    have hsmall := hnone s.freep (by simp)
    rw [Heap.mallocLoopInt, hnext, if_neg (by omega), if_pos rfl]
    exact hasks _ _
  | cons c m ih =>
    obtain ⟨i, rfl⟩ : ∃ i, k = i + 1 := ⟨k - 1, by omega⟩
    obtain ⟨hnext, hrest⟩ := List.isChain_cons_cons.mp hlinked
    rw [List.length_cons] at hk
    have hsmall := hnone c (by simp)
    rw [Heap.mallocLoopInt, hnext, if_neg (by omega)]
    by_cases hlast : c = s.freep
    · rw [if_pos hlast]
      exact hasks _ _
    · rw [if_neg hlast]
      exact ih hrest (by omega) fun x hx => hnone x (List.mem_cons_of_mem c hx)

/-- No block of the list is as large as half of the address space. -/
theorem FreeList.size_lt (h : FreeList L s gs bs) {g : Span} (hg : g ∈ gs) :
    s.size g.start < 2 ^ 28 := by
  have hsize := h.size g hg
  have hstop := h.stop_le hg
  have hbase := h.base_le_start hg
  have hpos := L.base_pos
  have hbrk := h.brk_le
  unfold Span.stop at hstop
  unfold sizeofHeader at hsize
  unfold kernbase at hbrk
  omega

/-- A request for half of the address space or more makes `malloc` pass an amount that is not
positive. -/
theorem FreeList.exists_not_covered (h : FreeList L s gs bs) (grant : ℕ → Bool)
    (hlow : 2 ^ 28 ≤ n) (hhigh : n ≤ 2 ^ 29) :
    ∃ r ∈ (s.mallocLoopInt grant n (2 * Heap.turns) s.freep (s.ptr s.freep)).1, ¬ r.Covered := by
  obtain ⟨m, hmem, -, hlinked, hlength⟩ := h.exists_walk
  refine ⟨_, mallocLoopInt_asks grant hlinked (by omega) ?_,
    morecoreInt_not_covered s grant hlow hhigh⟩
  intro x hx
  have hx : x ∈ s.freep :: m := by
    simp only [List.mem_append, List.mem_cons] at hx ⊢
    tauto
  obtain ⟨g, hg, rfl⟩ := List.mem_map.mp ((hmem x).mp hx)
  exact (h.size_lt hg).trans_le hlow

/-! ## One unit -/

/-- No block is free just when `base` is linked to itself. -/
theorem FreeList.ptr_base_iff (h : FreeList L s gs bs) :
    s.ptr L.base = L.base ↔ ∀ g ∈ gs, s.size g.start < 1 := by
  obtain ⟨fs, rfl⟩ : ∃ fs, gs = [] ++ ⟨L.base, 0⟩ :: fs := by
    have hfirst := h.first
    cases gs with
    | nil => cases hfirst
    | cons f fs => exact ⟨fs, by simpa using hfirst⟩
  have hptr := h.ptr_eq
  rw [hptr]
  cases fs with
  | nil => simp [h.size_base]
  | cons f fs =>
    have hbase : f.start ≠ L.base :=
      ((List.pairwise_cons.mp h.apart).1 f List.mem_cons_self).start_lt.ne'
    have hpos := h.pos f (by simp) hbase
    have hsize := h.size f (by simp)
    unfold sizeofHeader at hsize
    refine iff_of_false hbase fun hall => ?_
    have hlt := hall f (by simp)
    omega

/-- `morecore` for one unit fails just when `sbrk` does. -/
theorem FreeList.morecore_eq_iff (h : FreeList L s gs bs) (grant : ℕ → Bool) :
    s.morecore grant 1 = some (s, 0) ↔ s.sbrk grant (4096 * sizeofHeader) = none := by
  have hbytes : 4096 * sizeofHeader % 2 ^ 32 = 4096 * sizeofHeader :=
    Nat.mod_eq_of_lt (by unfold sizeofHeader; norm_num)
  unfold Heap.morecore
  dsimp only
  rw [if_pos (by norm_num), hbytes]
  rcases s.sbrk grant (4096 * sizeofHeader) with _ | ⟨s', hp⟩
  · simp
  · refine iff_of_false (fun hfail => ?_) (by simp)
    obtain ⟨t, -, heq⟩ := Option.map_eq_some_iff.mp hfail
    have hheap : t = s := congrArg Prod.fst heq
    have hnull : t.freep = 0 := congrArg Prod.snd heq
    rw [hheap] at hnull
    exact h.freep_ne_zero hnull

/-! ## The call -/

/-- The numbers of units of large requests. -/
theorem units_large {nbytes : ℕ} (hlow : 2 ^ 31 - 16 < nbytes) (hhigh : nbytes < 2 ^ 32 - 7) :
    2 ^ 28 ≤ Heap.units nbytes ∧ Heap.units nbytes ≤ 2 ^ 29 := by
  unfold Heap.units sizeofHeader
  omega

/-- For the last seven numbers of bytes, one unit is asked for. -/
theorem units_top {nbytes : ℕ} (hlow : 2 ^ 32 - 7 ≤ nbytes) (hhigh : nbytes < 2 ^ 32) :
    Heap.units nbytes = 1 := by
  unfold Heap.units sizeofHeader
  omega

/-- A call of `malloc` for one of the last seven numbers of bytes is safe just when it returns 0,
which it does when no block is free and `sbrk` refuses. -/
theorem Inv.safe_top {t : State} (h : Inv L t) {nbytes : ℕ} (hlow : 2 ^ 32 - 7 ≤ nbytes)
    (hhigh : nbytes < 2 ^ 32) (grant : ℕ → Bool) :
    ∃ x, (t.heap.mallocInt L grant nbytes).2 = some x ∧
      (Safe L t.heap grant nbytes ∧ Fits L t.heap grant nbytes ∧ x = (t.heap.init L, 0) ∨
        ¬ Safe L t.heap grant nbytes ∧ ¬ Fits L t.heap grant nbytes) := by
  have hunits := units_top hlow hhigh
  have hsmall : Heap.units nbytes < 2 ^ 28 := by omega
  obtain ⟨hcovered, heq⟩ := mallocInt_eq t.heap L grant hsmall
  obtain ⟨⟨gs, hlist⟩, -⟩ := h.freeList
  obtain ⟨x, hx, hresult⟩ := hlist.mallocLoop grant Nat.one_pos (by norm_num)
  have hcall : (t.heap.mallocInt L grant nbytes).2 = some x := by
    rw [heq, Heap.malloc, hunits]
    exact hx
  have hbrk : (t.heap.init L).sbrk grant (4096 * sizeofHeader) = none ↔
      t.heap.sbrk grant (4096 * sizeofHeader) = none := by
    have hsame : (t.heap.init L).brk = t.heap.brk := by
      unfold Heap.init
      split <;> rfl
    unfold Heap.sbrk
    rw [hsame]
    split <;> simp
  have hfits : Fits L t.heap grant nbytes ↔ (∀ g ∈ gs, (t.heap.init L).size g.start < 1) ∧
      (t.heap.init L).morecore grant 1 = some (t.heap.init L, 0) := by
    rw [← hlist.ptr_base_iff, hlist.morecore_eq_iff, hbrk]
    unfold Fits
    constructor
    · rintro (hsmall | ⟨-, hfit⟩)
      · omega
      · exact hfit
    · exact fun hfit => Or.inr ⟨hlow, hfit⟩
  refine ⟨x, hcall, ?_⟩
  rcases hresult with ⟨hnone, rfl⟩ | ⟨hsome, b, hb⟩
  · exact Or.inl ⟨⟨hcovered, _, hcall, Or.inl rfl⟩, hfits.mpr hnone, rfl⟩
  · refine Or.inr ⟨?_, mt hfits.mp hsome⟩
    rintro ⟨-, y, hy, hgood⟩
    obtain rfl : x = y := Option.some.inj (hcall.symm.trans hy)
    rcases hgood with hnull | huse
    · rw [hb.pointer] at hnull
      exact Nat.succ_ne_zero _ hnull
    · have hbytes := (hb.usable_iff nbytes).mp huse
      omega

/-- A call of `malloc` in a sound heap is safe just when the number of bytes fits. -/
theorem Inv.safe_iff {t : State} (h : Inv L t) {nbytes : ℕ} (hlt : nbytes < 2 ^ 32)
    (grant : ℕ → Bool) : Safe L t.heap grant nbytes ↔ Fits L t.heap grant nbytes := by
  rcases Nat.lt_or_ge (2 ^ 31 - 16) nbytes with hlarge | hsmall
  · rcases Nat.lt_or_ge nbytes (2 ^ 32 - 7) with hmiddle | htop
    · obtain ⟨hlow, hhigh⟩ := units_large hlarge hmiddle
      obtain ⟨⟨gs, hlist⟩, -⟩ := h.freeList
      obtain ⟨r, hr, hbad⟩ := hlist.exists_not_covered grant hlow hhigh
      refine iff_of_false (fun hsafe => hbad (hsafe.1 r hr)) ?_
      rintro (hsmall | ⟨htop, -⟩) <;> omega
    · obtain ⟨x, -, ⟨hsafe, hfits, -⟩ | ⟨hsafe, hfits⟩⟩ := h.safe_top htop hlt grant
      · exact iff_of_true hsafe hfits
      · exact iff_of_false hsafe hfits
  · obtain ⟨hcovered, heq⟩ := mallocInt_eq t.heap L grant (units_bounds hsmall).1.2
    obtain ⟨x, hx, hgood, -⟩ := h.mallocHeap grant hsmall
    exact iff_of_true ⟨hcovered, x, heq.trans hx, hgood⟩ (Or.inl hsmall)

/-- A call of `malloc` that fits keeps the heap sound. -/
theorem Inv.stepAny {t t' : State} (h : Inv L t) {nbytes : ℕ} {grant : ℕ → Bool}
    (hfits : Fits L t.heap grant nbytes)
    (hstep : stepAny L t (.malloc nbytes grant) = some t') : Inv L t' := by
  rw [UserHeap.stepAny] at hstep
  split at hstep
  case isFalse => cases hstep
  case isTrue hlt =>
    obtain ⟨x, hx, rfl⟩ := Option.map_eq_some_iff.mp hstep
    rcases hfits with hsmall | htop
    · obtain ⟨y, hy, -, hinv⟩ := h.mallocHeap grant hsmall
      rw [(mallocInt_eq t.heap L grant (units_bounds hsmall).1.2).2, hy] at hx
      cases hx
      exact hinv
    · obtain ⟨y, hy, ⟨-, -, heq⟩ | ⟨-, hno⟩⟩ := h.safe_top htop.1 hlt grant
      · rw [hy] at hx
        cases hx
        rw [heq]
        obtain ⟨hlist, husable⟩ := h.freeList
        exact Or.inr ⟨hlist, husable⟩
      · exact absurd (Or.inr htop) hno

/-- What holds in every state of a run in which all requests fit. -/
theorem run_fitting {trace : List Action} {t : State}
    (hrun : Run (stepAny L) (fitting L) (State.start L) trace t) : Inv L t := by
  refine hrun.invariant (I := fun _ t => Inv L t) (Or.inl ⟨rfl, rfl, rfl⟩) ?_
  intro trace t a t' h hguard hstep
  cases a with
  | malloc nbytes grant => exact h.stepAny hguard hstep
  | free b =>
    have hfree : step L t (.free b) = some t' := hstep
    have hb : b ∈ t.live := by
      by_contra hno
      rw [step, if_neg hno] at hfree
      cases hfree
    obtain ⟨u, hu, hinv⟩ := h.free hb
    rw [hfree] at hu
    cases hu
    exact hinv
  | store b a first second => exact h.store hstep

/-- In every run of a program whose requests have fitted so far, and for every number of bytes and
whatever `sbrk` answers: `malloc` returns 0 or a block that is large enough, and asks `sbrk` for
positive amounts and not for less than it puts into the free list, just when the number of bytes
fits. -/
theorem malloc_safe_iff {trace : List Action} {t : State}
    (hrun : Run (stepAny L) (fitting L) (State.start L) trace t) {nbytes : ℕ}
    (hlt : nbytes < 2 ^ 32) (grant : ℕ → Bool) :
    Safe L t.heap grant nbytes ↔ Fits L t.heap grant nbytes :=
  (run_fitting hrun).safe_iff hlt grant

/-- The first call of `malloc`, for 100 bytes. -/
theorem malloc_safe_iff_first :
    Safe sampleLayout (State.start sampleLayout).heap (fun _ => true) 100 :=
  (malloc_safe_iff .start (by norm_num) _).mpr (Or.inl (by norm_num))

/-- The first call of `malloc`, for all bytes but one: it returns a block of none. -/
theorem malloc_top_not_safe : ¬ ∀ (L : Layout) (trace : List Action) (t : State),
    Run (stepAny L) GuardedRun.free (State.start L) trace t → ∀ nbytes < 2 ^ 32, ∀ grant,
      Safe L t.heap grant nbytes := by
  intro h
  obtain ⟨-, x, hx, hgood⟩ := h sampleLayout [] _ .start (2 ^ 32 - 1) (by norm_num) fun _ => true
  have hcall : ∃ x, ((State.start sampleLayout).heap.mallocInt sampleLayout (fun _ => true)
      (2 ^ 32 - 1)).2 = some x ∧ x.2 = 0xb000 ∧ x.1.size 0xaff8 = 1 :=
    ⟨_, rfl, by decide, by decide⟩
  obtain ⟨y, hy, hap, hsize⟩ := hcall
  obtain rfl : x = y := Option.some.inj (hx.symm.trans hy)
  rcases hgood with hnull | huse
  · omega
  · have hbytes := huse.bytes
    simp only [Block.span, Block.header, Span.stop, hap, sizeofHeader] at hbytes
    rw [hsize] at hbytes
    omega

end Xv6.UserHeap
