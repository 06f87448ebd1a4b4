import Xv6.AddressSpace

/-!
# `mappages` on a flat page map

A page directory with its page tables stands for a flat map from page numbers to entries, read
through `walkpgdir`. The loop of `mappages` ends when its address is equal to the last one, not
when it is beyond; it adds the pages of the range to the flat map, one by one and in order,
whatever page tables it has to allocate on the way.
-/

namespace Xv6.PageMap

open PageStore

/-! ## The loop -/

/-- The loop of `mappages`, for a number of turns; the outer `none` if they do not suffice, the
inner one for the panic. The flag says whether 0 is returned, and not -1. -/
def mappagesLoop (pgdir last : ℕ) (perm : Perm) : ℕ → ℕ → ℕ → Mem → Option (Option (Bool × Mem))
  | 0, _, _, _ => none
  | turns + 1, a, pa, m =>
    match walkpgdir m pgdir a true with
    | (none, m) => some (some (false, m))
    | (some (pgtab, i), m) =>
        if (m.page pgtab i).p then some none
        else
          let m := setEntry m pgtab i (.present pa perm)
          if a = last then some (some (true, m))
          else mappagesLoop pgdir last perm turns ((a + pgsize) % 2 ^ 32) ((pa + pgsize) % 2 ^ 32) m

/-- `mappages`, with a number of turns for its loop. -/
def mappages (turns pgdir va size pa : ℕ) (perm : Perm) (m : Mem) : Option (Option (Bool × Mem)) :=
  let a := pgrounddown va
  let last := pgrounddown (wrapUint ((va : ℤ) + size - 1))
  mappagesLoop pgdir last perm turns a pa m

/-! ## The flat map -/

/-- The entry of a page that is mapped, found through `walkpgdir`. -/
def lookup (m : Mem) (pgdir va : ℕ) : Option Pte :=
  match (walkpgdir m pgdir va false).1 with
  | none => none
  | some (pgtab, i) => if (m.page pgtab i).p then some (m.page pgtab i) else none

/-- The entries of the mapped pages, by page number. -/
abbrev FlatMap := ℕ → Option Pte

/-- The flat map of a page directory. -/
def flatMap (m : Mem) (pgdir : ℕ) : FlatMap := fun page =>
  if page * pgsize < 2 ^ 32 then lookup m pgdir (page * pgsize) else none

/-- A map to which `k` pages from `page` on have been added, with physical pages from `pa` on. -/
def FlatMap.extend (f : FlatMap) (page k pa : ℕ) (perm : Perm) : FlatMap := fun n =>
  if page ≤ n ∧ n < page + k then
    some (.present ((pa + (n - page) * pgsize) % 2 ^ 32) perm)
  else f n

/-- The page directory and its page tables are pages of their own, none of them free, and no page
is free twice. -/
structure Frames (m : Mem) (d : ℕ) : Prop where
  /-- Page tables are distinct. -/
  inj : ∀ i j, (m.page d i).p → (m.page d j).p →
    pageTable m.page d i = pageTable m.page d j → i = j
  /-- No page table is the page directory. -/
  ne_self : ∀ i, (m.page d i).p → pageTable m.page d i ≠ d
  /-- No page is free twice. -/
  nodup : m.free.Nodup
  /-- Free pages have addresses. -/
  lt : ∀ f ∈ m.free, f < 2 ^ 32
  /-- The page directory is in use. -/
  self : d ∉ m.free
  /-- The page tables are in use. -/
  table : ∀ i, (m.page d i).p → pageTable m.page d i ∉ m.free

variable {m m' : Mem} {d a b pa : ℕ} {perm : Perm}

theorem lookup_eq (m : Mem) (d va : ℕ) : lookup m d va =
    if (m.page d (pdx va)).p ∧ (m.page (pageTable m.page d (pdx va)) (ptx va)).p then
      some (m.page (pageTable m.page d (pdx va)) (ptx va))
    else none := by
  rw [lookup, walkpgdir_false]
  by_cases hp : (m.page d (pdx va)).p
  · simp [hp]
  · simp [hp]

/-- An address that is not mapped has no present entry. -/
theorem not_present (hnone : lookup m d a = none) (hp : (m.page d (pdx a)).p) :
    ¬ (m.page (pageTable m.page d (pdx a)) (ptx a)).p := by
  intro hentry
  rw [lookup_eq, if_pos ⟨hp, hentry⟩] at hnone
  cases hnone

/-- A page table that is allocated changes no lookup; without one no page is free. -/
theorem walkpgdir_alloc (h : Frames m d) (a : ℕ) :
    walkpgdir m d a true = (none, m) ∧ m.free = [] ∨
      ∃ m', walkpgdir m d a true = (some (pageTable m'.page d (pdx a), ptx a), m') ∧
        Frames m' d ∧ (m'.page d (pdx a)).p ∧ ∀ b, lookup m' d b = lookup m d b := by
  by_cases hp : (m.page d (pdx a)).p
  · refine .inr ⟨m, ?_, h, hp, fun _ => rfl⟩
    simp [walkpgdir, hp, pageTable]
  cases halloc : kalloc m with
  | mk f m₁ =>
    cases f with
    | none =>
      obtain ⟨rfl, hempty⟩ := alloc_eq_none halloc
      exact .inl ⟨by simp [walkpgdir, hp, halloc], hempty⟩
    | some f =>
      obtain ⟨hfree, hpage⟩ := alloc_eq_some halloc
      have hmem : f ∈ m.free := by simp [hfree]
      have hnodup := h.nodup
      rw [hfree, List.nodup_cons] at hnodup
      have hfd : f ≠ d := fun heq => h.self (heq ▸ hmem)
      generalize hm' : setEntry (clearPage m₁ f) d (pdx a) (.present (v2p f) ⟨true, true, 0⟩) = m'
      have hfree' : m'.free = m₁.free := by rw [← hm']; rfl
      have hdir : m'.page d = fun k =>
          if k = pdx a then .present (v2p f) ⟨true, true, 0⟩ else m.page d k := by
        rw [← hm', setEntry_page_self]
        funext k
        rw [clearPage, write_page_of_ne hfd.symm, hpage]
      have hself : m'.page d (pdx a) = .present (v2p f) ⟨true, true, 0⟩ := by
        rw [hdir]
        exact if_pos rfl
      have hother {k : Fin 1024} (hk : k ≠ pdx a) : m'.page d k = m.page d k := by
        rw [hdir]
        exact if_neg hk
      have htable : pageTable m'.page d (pdx a) = f := by
        have hlt := h.lt f hmem
        rw [pageTable, hself]
        change p2v (v2p f) = f
        unfold p2v v2p kernbase
        omega
      have htables {k : Fin 1024} (hk : k ≠ pdx a) :
          pageTable m'.page d k = pageTable m.page d k := by
        rw [pageTable, pageTable, hother hk]
      have hzero : m'.page f = fun _ => .zero := by
        rw [← hm', setEntry_page_of_ne hfd, clearPage, write_page_self]
      have hkeep {g : ℕ} (hgd : g ≠ d) (hgf : g ≠ f) : m'.page g = m.page g := by
        rw [← hm', setEntry_page_of_ne hgd, clearPage, write_page_of_ne hgf, hpage]
      have hfresh {k : Fin 1024} (hk : (m.page d k).p) : pageTable m.page d k ≠ f :=
        fun heq => h.table k hk (heq ▸ hmem)
      have hrest {g : ℕ} (hg : g ∉ m.free) : g ∉ m'.free := by
        rw [hfree']
        exact fun hin => hg (by rw [hfree]; exact List.mem_cons_of_mem _ hin)
      refine .inr ⟨m', ?_, ⟨fun i j hi hj heq => ?_, fun i hi => ?_, ?_, fun g hg => ?_,
        hrest h.self, fun i hi => ?_⟩, by rw [hself]; rfl, fun b => ?_⟩
      · rw [htable, ← hm']
        simp [walkpgdir, hp, halloc]
      · by_cases hia : i = pdx a <;> by_cases hja : j = pdx a
        · rw [hia, hja]
        · rw [hother hja] at hj
          rw [hia, htable, htables hja] at heq
          exact absurd heq.symm (hfresh hj)
        · rw [hother hia] at hi
          rw [hja, htable, htables hia] at heq
          exact absurd heq (hfresh hi)
        · rw [hother hia] at hi
          rw [hother hja] at hj
          rw [htables hia, htables hja] at heq
          exact h.inj i j hi hj heq
      · by_cases hia : i = pdx a
        · rwa [hia, htable]
        · rw [hother hia] at hi
          rw [htables hia]
          exact h.ne_self i hi
      · rw [hfree']
        exact hnodup.2
      · rw [hfree'] at hg
        exact h.lt g (by rw [hfree]; exact List.mem_cons_of_mem _ hg)
      · by_cases hia : i = pdx a
        · rw [hia, htable, hfree']
          exact hnodup.1
        · rw [hother hia] at hi
          rw [htables hia]
          exact hrest (h.table i hi)
      · rw [lookup_eq, lookup_eq]
        by_cases hba : pdx b = pdx a
        · rw [hba, htable, hzero, if_neg (by simp [Pte.zero]), if_neg (by simp [hp])]
        · rw [hother hba, htables hba]
          by_cases hbp : (m.page d (pdx b)).p
          · rw [hkeep (h.ne_self _ hbp) (hfresh hbp)]
          · rw [if_neg (by simp [hbp]), if_neg (by simp [hbp])]

/-- Setting the entry of an address changes the lookups of its page only. -/
theorem setEntry_lookup (h : Frames m d) (hp : (m.page d (pdx a)).p) (ha : a < 2 ^ 32) (pa : ℕ)
    (perm : Perm) :
    Frames (setEntry m (pageTable m.page d (pdx a)) (ptx a) (.present pa perm)) d ∧
      ∀ b < 2 ^ 32,
        lookup (setEntry m (pageTable m.page d (pdx a)) (ptx a) (.present pa perm)) d b =
          if b / 4096 = a / 4096 then some (.present pa perm) else lookup m d b := by
  generalize hm' : setEntry m (pageTable m.page d (pdx a)) (ptx a) (.present pa perm) = m'
  have hfree : m'.free = m.free := by rw [← hm']; rfl
  have hdir : m'.page d = m.page d := by
    rw [← hm']
    exact setEntry_page_of_ne (h.ne_self _ hp).symm _ _
  have htable (i : Fin 1024) : pageTable m'.page d i = pageTable m.page d i :=
    pageTable_congr hdir
  refine ⟨⟨fun i j hi hj heq => ?_, fun i hi => ?_, ?_, fun f hf => ?_, ?_, fun i hi => ?_⟩,
    fun b hb => ?_⟩
  · rw [hdir] at hi hj
    rw [htable, htable] at heq
    exact h.inj i j hi hj heq
  · rw [hdir] at hi
    rw [htable]
    exact h.ne_self i hi
  · rw [hfree]
    exact h.nodup
  · rw [hfree] at hf
    exact h.lt f hf
  · rw [hfree]
    exact h.self
  · rw [hdir] at hi
    rw [htable, hfree]
    exact h.table i hi
  · rw [lookup_eq, lookup_eq, hdir, htable]
    have hiff := pdx_ptx_eq_iff ha hb
    by_cases hpage : pdx b = pdx a
    · have hset (k : Fin 1024) : m'.page (pageTable m.page d (pdx a)) k =
          if k = ptx a then .present pa perm else m.page (pageTable m.page d (pdx a)) k := by
        rw [← hm', setEntry_page_self]
      rw [hpage, hset]
      by_cases hentry : ptx b = ptx a
      · rw [if_pos (hiff.mp ⟨hpage, hentry⟩), hentry, if_pos rfl, if_pos ⟨hp, rfl⟩]
      · rw [if_neg (mt hiff.mpr fun hboth => hentry hboth.2), if_neg hentry]
    · rw [if_neg (mt hiff.mpr fun hboth => hpage hboth.1)]
      by_cases hbp : (m.page d (pdx b)).p
      · have hne : pageTable m.page d (pdx b) ≠ pageTable m.page d (pdx a) :=
          fun heq => hpage (h.inj _ _ hbp hp heq)
        rw [← hm', setEntry_page_of_ne hne]
      · rw [if_neg (by simp [hbp]), if_neg (by simp [hbp])]

/-! ## The range -/

/-- The first `k` pages of the range from the address `a` on have been mapped, and no others. -/
structure Extends (m : Mem) (d a k pa : ℕ) (perm : Perm) (m' : Mem) : Prop where
  /-- Pages are still not shared. -/
  frames : Frames m' d
  /-- The lookups. -/
  lookup : ∀ b < 2 ^ 32, lookup m' d b =
    if a / 4096 ≤ b / 4096 ∧ b / 4096 < a / 4096 + k then
      some (.present ((pa + (b / 4096 - a / 4096) * pgsize) % 2 ^ 32) perm)
    else PageMap.lookup m d b

theorem Extends.zero (h : Frames m d) (a pa : ℕ) (perm : Perm) : Extends m d a 0 pa perm m :=
  ⟨h, fun b _ => by rw [if_neg (by omega)]⟩

/-- One page is mapped. -/
theorem Extends.one (h : Frames m' d) (hpa : pa < 2 ^ 32)
    (hlookup : ∀ b < 2 ^ 32, PageMap.lookup m' d b =
      if b / 4096 = a / 4096 then some (.present pa perm) else PageMap.lookup m d b) :
    Extends m d a 1 pa perm m' := by
  refine ⟨h, fun b hb => ?_⟩
  rw [hlookup b hb]
  by_cases hpage : b / 4096 = a / 4096
  · rw [if_pos hpage, if_pos (by omega), hpage, Nat.sub_self, Nat.zero_mul, Nat.add_zero,
      Nat.mod_eq_of_lt hpa]
  · rw [if_neg hpage, if_neg (by omega)]

/-- One page is mapped, and then the pages behind it. -/
theorem Extends.next {m₁ : Mem} {k : ℕ} (hfirst : Extends m d a 1 pa perm m₁)
    (hrest : Extends m₁ d (a + 4096) k ((pa + pgsize) % 2 ^ 32) perm m') :
    Extends m d a (k + 1) pa perm m' := by
  refine ⟨hrest.frames, fun b hb => ?_⟩
  rw [hrest.lookup b hb, hfirst.lookup b hb]
  by_cases hlater : (a + 4096) / 4096 ≤ b / 4096 ∧ b / 4096 < (a + 4096) / 4096 + k
  · have haddr : ((pa + pgsize) % 2 ^ 32 + (b / 4096 - (a + 4096) / 4096) * pgsize) % 2 ^ 32 =
        (pa + (b / 4096 - a / 4096) * pgsize) % 2 ^ 32 := by
      unfold pgsize
      omega
    rw [if_pos hlater, if_pos (by omega), haddr]
  · rw [if_neg hlater]
    by_cases hhere : a / 4096 ≤ b / 4096 ∧ b / 4096 < a / 4096 + 1
    · rw [if_pos hhere, if_pos (by omega)]
    · rw [if_neg hhere, if_neg (by omega)]

/-- One turn of the loop at an address that is not mapped: the loop gives up without a free page,
or the page is mapped in addition. -/
theorem mappagesLoop_turn (h : Frames m d) (ha : a < 2 ^ 32) (hpa : pa < 2 ^ 32)
    (hnone : lookup m d a = none) (last : ℕ) (perm : Perm) :
    (∀ turns, mappagesLoop d last perm (turns + 1) a pa m = some (some (false, m))) ∧
        m.free = [] ∨
      ∃ m', Extends m d a 1 pa perm m' ∧
        ∀ turns, mappagesLoop d last perm (turns + 1) a pa m =
          if a = last then some (some (true, m'))
          else mappagesLoop d last perm turns ((a + pgsize) % 2 ^ 32) ((pa + pgsize) % 2 ^ 32)
            m' := by
  obtain ⟨hwalk, hempty⟩ | ⟨m₁, hwalk, hframes₁, hp₁, hlookup₁⟩ := walkpgdir_alloc h a
  · refine .inl ⟨fun turns => ?_, hempty⟩
    rw [mappagesLoop, hwalk]
  · right
    obtain ⟨hframes', hlookup'⟩ := setEntry_lookup hframes₁ hp₁ ha pa perm
    have hold := not_present ((hlookup₁ a).trans hnone) hp₁
    refine ⟨_, .one hframes' hpa fun b hb => ?_, fun turns => ?_⟩
    · rw [hlookup' b hb, hlookup₁ b]
    · rw [mappagesLoop, hwalk]
      dsimp only
      rw [if_neg hold]

/-- The loop from a page-aligned address to the last one, which is `n` pages on: it reaches the
last address, and maps all pages, or the first ones until no page is free. -/
theorem mappagesLoop_spec {m : Mem} {a pa last n : ℕ} (h : Frames m d) (haligned : a % 4096 = 0)
    (hlast : a + n * 4096 = last) (hlt : last < 2 ^ 32) (hpa : pa < 2 ^ 32)
    (hnone : ∀ i ≤ n, lookup m d (a + i * 4096) = none) (perm : Perm) :
    ∃ ok m' k, (∀ turns > n, mappagesLoop d last perm turns a pa m = some (some (ok, m'))) ∧
      Extends m d a k pa perm m' ∧ if ok then k = n + 1 else k ≤ n ∧ m'.free = [] := by
  have hfirst := hnone 0 (Nat.zero_le n)
  rw [Nat.zero_mul, Nat.add_zero] at hfirst
  obtain ⟨hstop, hempty⟩ | ⟨m₁, hone, hturn⟩ :=
    mappagesLoop_turn h (by omega) hpa hfirst last perm
  · refine ⟨false, m, 0, fun turns hturns => ?_, .zero h a pa perm, Nat.zero_le n, hempty⟩
    obtain ⟨t, rfl⟩ := Nat.exists_eq_add_of_lt hturns
    exact hstop (n + t)
  cases n with
  | zero =>
    refine ⟨true, m₁, 1, fun turns hturns => ?_, hone, rfl⟩
    obtain ⟨t, rfl⟩ := Nat.exists_eq_add_of_lt hturns
    rw [hturn, if_pos (by omega)]
  | succ n =>
    have hnext : (a + pgsize) % 2 ^ 32 = a + 4096 := Nat.mod_eq_of_lt (by unfold pgsize; omega)
    have hnone₁ (i : ℕ) (hi : i ≤ n) : lookup m₁ d (a + 4096 + i * 4096) = none := by
      have hshift : a + 4096 + i * 4096 = a + (i + 1) * 4096 := by ring
      rw [hone.lookup _ (by omega), if_neg (by omega), hshift]
      exact hnone (i + 1) (by omega)
    obtain ⟨ok, m', k, hrun, hrest, hk⟩ := mappagesLoop_spec (n := n) (a := a + 4096) hone.frames
      (by omega) (by omega) hlt (Nat.mod_lt (pa + pgsize) (by norm_num)) hnone₁ perm
    refine ⟨ok, m', k + 1, fun turns hturns => ?_, hone.next hrest, ?_⟩
    · obtain ⟨t, rfl⟩ := Nat.exists_eq_add_of_lt hturns
      rw [hturn, if_neg (by omega), hnext]
      exact hrun _ (by omega)
    · cases ok <;> simpa using hk
termination_by n

/-- The number of pages of a range. -/
def pageCount (va size : ℕ) : ℕ := (va + size - 1) / pgsize - va / pgsize + 1

/-- The range begins at a page boundary and ends at the last page of the range. -/
theorem range_last {va size : ℕ} (hsize : 1 ≤ size) (hend : va + size - 1 < 2 ^ 32) :
    pgrounddown va + (pageCount va size - 1) * 4096 =
      pgrounddown (wrapUint ((va : ℤ) + size - 1)) := by
  have hwrap : wrapUint ((va : ℤ) + size - 1) = va + size - 1 := by
    unfold wrapUint
    omega
  rw [hwrap]
  unfold pgrounddown pageCount pgsize
  omega

/-- What the flat map says when the lookups say that pages have been added. -/
theorem Extends.flatMap_eq {va k : ℕ} (h : Extends m d (pgrounddown va) k pa perm m')
    (hk : va / pgsize + k ≤ 2 ^ 20) :
    flatMap m' d = (flatMap m d).extend (va / pgsize) k pa perm := by
  have hpage : pgrounddown va / 4096 = va / pgsize := by
    unfold pgrounddown pgsize
    omega
  funext page
  rw [FlatMap.extend, flatMap, flatMap]
  by_cases hlt : page * pgsize < 2 ^ 32
  · have hdiv : page * pgsize / 4096 = page := Nat.mul_div_cancel page (by unfold pgsize; norm_num)
    rw [if_pos hlt, if_pos hlt, h.lookup _ hlt, hdiv, hpage]
  · have hout : ¬ (va / pgsize ≤ page ∧ page < va / pgsize + k) := by
      unfold pgsize at *
      omega
    rw [if_neg hlt, if_neg hlt, if_neg hout]

/-- `mappages` of a range of pages that are not mapped ends, without the panic. It adds to the flat
map all pages of the range, in order, or it returns -1 with no page free and adds a proper prefix of
them. -/
theorem mappages_refines (m : Mem) (d va size pa : ℕ) (perm : Perm) (h : Frames m d)
    (hsize : 1 ≤ size) (hend : va + size - 1 < 2 ^ 32) (hpa : pa < 2 ^ 32)
    (hnew : ∀ page, va / pgsize ≤ page → page < va / pgsize + pageCount va size →
      flatMap m d page = none) :
    ∃ ok m' k, (∀ turns ≥ pageCount va size,
        mappages turns d va size pa perm m = some (some (ok, m'))) ∧
      Frames m' d ∧ (if ok then k = pageCount va size
        else k < pageCount va size ∧ m'.free = []) ∧
      flatMap m' d = (flatMap m d).extend (va / pgsize) k pa perm := by
  have hlast := range_last hsize hend
  have hcount : va / pgsize + pageCount va size ≤ 2 ^ 20 := by
    unfold pageCount pgsize
    omega
  have hpos : 1 ≤ pageCount va size := by
    unfold pageCount
    omega
  have hstart : pgrounddown va = va / pgsize * pgsize := rfl
  have hnone (i : ℕ) (hi : i ≤ pageCount va size - 1) :
      lookup m d (pgrounddown va + i * 4096) = none := by
    have hpage := hnew (va / pgsize + i) (by omega) (by omega)
    rw [flatMap, if_pos (by unfold pgsize at *; omega), Nat.add_mul] at hpage
    exact hpage
  have haligned : pgrounddown va % 4096 = 0 := Nat.mul_mod_left (va / pgsize) pgsize
  have hlt : pgrounddown (wrapUint ((va : ℤ) + size - 1)) < 2 ^ 32 := by
    unfold pgrounddown wrapUint pgsize
    omega
  obtain ⟨ok, m', k, hrun, hext, hk⟩ := mappagesLoop_spec h haligned hlast hlt hpa hnone perm
  have hadded : if ok then k = pageCount va size
      else k < pageCount va size ∧ m'.free = [] := by
    cases ok
    · have hstop : k ≤ pageCount va size - 1 ∧ m'.free = [] := hk
      exact (⟨by omega, hstop.2⟩ : k < pageCount va size ∧ m'.free = [])
    · have hall : k = pageCount va size - 1 + 1 := hk
      exact (by omega : k = pageCount va size)
  have hle : k ≤ pageCount va size := by split at hadded <;> omega
  exact ⟨ok, m', k, fun turns hturns => hrun turns (by omega), hext.frames, hadded,
    hext.flatMap_eq (by omega)⟩

/-- A machine with two free pages and an empty page directory. -/
def emptyMem : Mem := ⟨[0x80400000, 0x80401000], fun _ _ => .zero⟩

/-- Two pages are mapped, across a boundary of page tables. -/
theorem mappages_refines_twoPages :
    ∃ m', (∀ turns ≥ 2, mappages turns 0x80402000 0x3ff800 0x1000 0 ⟨true, true, 0⟩ emptyMem =
        some (some (true, m'))) ∧
      Frames m' 0x80402000 ∧
      flatMap m' 0x80402000 =
        (flatMap emptyMem 0x80402000).extend (0x3ff800 / pgsize) 2 0 ⟨true, true, 0⟩ := by
  have hreturns : (mappages 2 0x80402000 0x3ff800 0x1000 0 ⟨true, true, 0⟩ emptyMem).map
      (Option.map (·.1)) = some (some true) := by decide +kernel
  have hcount : pageCount 0x3ff800 0x1000 = 2 := by decide
  obtain ⟨ok, m', k, hrun, hframes, hadded, hflat⟩ :=
    mappages_refines emptyMem 0x80402000 0x3ff800 0x1000 0 ⟨true, true, 0⟩
      ⟨fun _ _ hp _ => (by cases hp), fun _ hp => (by cases hp), by decide, by decide, by decide,
        fun _ hp => (by cases hp)⟩
      (by decide) (by decide) (by decide) (by
        intro page _ _
        have hnone : lookup emptyMem 0x80402000 (page * pgsize) = none := by
          rw [lookup_eq]
          exact if_neg fun hp => Bool.false_ne_true hp.1
        rw [flatMap, hnone, ite_self])
  rw [hcount] at hrun hadded
  rw [hrun 2 le_rfl] at hreturns
  obtain rfl : ok = true := by simpa using hreturns
  rw [if_pos rfl] at hadded
  exact ⟨m', hrun, hframes, hadded ▸ hflat⟩

/-! ## The loop that counts pages -/

/-- When neither address wraps, the loop that compares addresses is the one that counts pages. -/
theorem mappagesLoop_eq_mappagesFrom {m : Mem} {a pa last n turns : ℕ}
    (hlast : a + n * pgsize = last) (hlt : last < 2 ^ 32) (hpa : pa + n * pgsize < 2 ^ 32)
    (hturns : n < turns) :
    mappagesLoop d last perm turns a pa m = some (mappagesFrom d perm n a pa m) := by
  obtain ⟨t, rfl⟩ := Nat.exists_eq_add_of_lt hturns
  obtain ⟨f, m₁, hwalk⟩ : ∃ f m₁, walkpgdir m d a true = (f, m₁) := ⟨_, _, rfl⟩
  obtain _ | ⟨pgtab, i⟩ := f
  · rw [mappagesLoop, mappagesFrom, hwalk]
  rw [mappagesLoop, mappagesFrom, hwalk]
  dsimp only
  by_cases hp : (m₁.page pgtab i).p
  · rw [if_pos hp, if_pos hp]
  rw [if_neg hp, if_neg hp]
  unfold pgsize at *
  cases n with
  | zero => rw [if_pos (by omega)]
  | succ n =>
    have hnext : (a + 4096) % 2 ^ 32 = a + 4096 := Nat.mod_eq_of_lt (by omega)
    have hpaNext : (pa + 4096) % 2 ^ 32 = pa + 4096 := Nat.mod_eq_of_lt (by omega)
    rw [if_neg (by omega), hnext, hpaNext]
    have hlast' : a + 4096 + n * pgsize = last := by
      unfold pgsize
      omega
    have hpa' : pa + 4096 + n * pgsize < 2 ^ 32 := by
      unfold pgsize
      omega
    exact mappagesLoop_eq_mappagesFrom hlast' hlt hpa' (by omega)
termination_by n

/-- `mappages` as the processes of the kernel use it. -/
theorem mappages_eq (m : Mem) (d va size pa : ℕ) (perm : Perm) (hsize : 1 ≤ size)
    (hend : va + size - 1 < 2 ^ 32) (hpa : pa + (pageCount va size - 1) * pgsize < 2 ^ 32)
    {turns : ℕ} (hturns : pageCount va size ≤ turns) :
    mappages turns d va size pa perm m = some (Xv6.mappages d va size pa perm m) := by
  have hlast := range_last hsize hend
  have hpos : 1 ≤ pageCount va size := by
    unfold pageCount
    omega
  have hn : (pgrounddown (wrapUint ((va : ℤ) + size - 1)) - pgrounddown va) / pgsize =
      pageCount va size - 1 := by
    rw [← hlast]
    unfold pgsize
    omega
  have hlt : pgrounddown (wrapUint ((va : ℤ) + size - 1)) < 2 ^ 32 := by
    unfold pgrounddown wrapUint pgsize
    omega
  rw [mappages, Xv6.mappages]
  simp only [hn]
  exact mappagesLoop_eq_mappagesFrom hlast hlt hpa (by omega)

end Xv6.PageMap
