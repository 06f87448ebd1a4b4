import Xv6.AddressSpaceOps

/-!
# The contents of user memory

The functions of `vm.c` with the bytes they write: `memset` of a new page, the filling of a
freed one, and the copying of `copyout` and `loaduvm`. A byte is named by its kernel virtual
address; the bytes of pages that are in use as page tables play no role, since their words
are those of `Vm.lean`. Forgetting the bytes gives the functions of `Vm.lean` back.
-/

namespace Xv6

open PageStore

/-- Physical memory: the free list and the page tables, and the bytes of the other pages. -/
structure Ram where
  /-- The free list, and the words of page tables. -/
  mem : Mem
  /-- The bytes, by kernel virtual address. -/
  byte : ℕ → UInt8

namespace Ram

/-- `memset(page, b, PGSIZE)`. -/
def fill (r : Ram) (page : ℕ) (b : UInt8) : Ram :=
  { r with byte := fun a => if page ≤ a ∧ a < page + pgsize then b else r.byte a }

/-- `memmove(a, data, n)`, for the `n` bytes of `data`. -/
def store (r : Ram) (a : ℕ) (data : List UInt8) : Ram :=
  { r with byte := fun b => if a ≤ b then (data[b - a]?).getD (r.byte b) else r.byte b }

@[simp] theorem fill_mem (r : Ram) (page : ℕ) (b : UInt8) : (r.fill page b).mem = r.mem := rfl

@[simp] theorem store_mem (r : Ram) (a : ℕ) (data : List UInt8) :
    (r.store a data).mem = r.mem := rfl

@[simp] theorem store_nil (r : Ram) (a : ℕ) : r.store a [] = r := by simp [store]

/-- Copying a byte and then the rest. -/
theorem store_cons (r : Ram) (a : ℕ) (b : UInt8) (data : List UInt8) :
    r.store a (b :: data) =
      { r with byte := Function.update r.byte a b }.store (a + 1) data := by
  simp only [store, Ram.mk.injEq, true_and]
  funext c
  rcases lt_trichotomy c a with hc | rfl | hc
  · rw [if_neg (by omega), if_neg (by omega), Function.update_of_ne hc.ne]
  · rw [if_pos le_rfl, if_neg (by omega)]
    simp
  · obtain ⟨k, rfl⟩ : ∃ k, c = a + 1 + k := ⟨c - (a + 1), by omega⟩
    rw [if_pos (by omega), if_pos (by omega), Function.update_of_ne hc.ne']
    have hindex : a + 1 + k - a = k + 1 := by omega
    simp [hindex]

end Ram

/-! ## Translation -/

/-- The page table entry of an address, or nothing if the page table is absent. -/
def pte (w : ℕ → Fin 1024 → Pte) (d va : ℕ) : Option Pte :=
  if (w d (pdx va)).p then some (w (pageTable w d (pdx va)) (ptx va)) else none

/-- The page that `uva2ka` finds for an address: it is present and a user page. -/
def userFrame (w : ℕ → Fin 1024 → Pte) (d va : ℕ) : Option ℕ :=
  (pte w d va).bind fun e => if e.p ∧ e.u ∧ p2v e.addr ≠ 0 then some (p2v e.addr) else none

theorem userFrame_eq_some {w : ℕ → Fin 1024 → Pte} {d va f : ℕ} :
    userFrame w d va = some f ↔ ∃ e, pte w d va = some e ∧ e.p ∧ e.u ∧ p2v e.addr = f ∧ f ≠ 0 := by
  unfold userFrame
  rw [Option.bind_eq_some_iff]
  refine exists_congr fun e => and_congr_right fun _ => ?_
  split_ifs with he
  · rw [Option.some_inj]
    grind
  · grind

theorem mapped_iff_pte {w : ℕ → Fin 1024 → Pte} {d va : ℕ} :
    Mapped w d va ↔ ∃ e, pte w d va = some e ∧ e.p := by
  unfold Mapped pte
  split_ifs with hp <;> simp [hp]

/-- Addresses of one page have one entry. -/
theorem pte_congr_page {w : ℕ → Fin 1024 → Pte} {d a b : ℕ} (ha : a < 2 ^ 32) (hb : b < 2 ^ 32)
    (hpage : b / 4096 = a / 4096) : pte w d b = pte w d a := by
  obtain ⟨hpdx, hptx⟩ := (pdx_ptx_eq_iff ha hb).mpr hpage
  rw [pte, pte, hpdx, hptx]

theorem userFrame_congr_page {w : ℕ → Fin 1024 → Pte} {d a b : ℕ} (ha : a < 2 ^ 32)
    (hb : b < 2 ^ 32) (hpage : b / 4096 = a / 4096) : userFrame w d b = userFrame w d a := by
  rw [userFrame, userFrame, pte_congr_page ha hb hpage]

/-- `uva2ka` returns what the entry says, unless the page table is absent. -/
theorem uva2ka_eq (m : Mem) (d va : ℕ) :
    uva2ka m d va =
      (pte m.page d va).map fun e => if e.p ∧ e.u then some (p2v e.addr) else none := by
  rw [uva2ka, walkpgdir_false, pte]
  split_ifs with hp
  · simp only [Option.map_some]
    grind
  · rfl

/-! ## `copyout` -/

/-- `copyout`: whether it returns 0, and not -1. A null pointer dereferenced is a `none`. -/
def Ram.copyout (r : Ram) (pgdir va : ℕ) (p : List UInt8) : Option (Bool × Ram) :=
  if _h : 0 < p.length then
    (uva2ka r.mem pgdir (pgrounddown va)).bind fun pa0 =>
      if pa0.getD 0 = 0 then some (false, r)
      else
        let n := (pgsize - (va - pgrounddown va)) ⊓ p.length
        (r.store (pa0.getD 0 + (va - pgrounddown va)) (p.take n)).copyout pgdir
          ((pgrounddown va + pgsize) % 2 ^ 32) (p.drop n)
  else some (true, r)
termination_by p.length
decreasing_by
  simp only [List.length_drop]
  unfold pgrounddown pgsize
  omega

/-- Without the bytes, `copyout` is that of `Vm.lean`. -/
theorem Ram.copyout_fst (r : Ram) (d va : ℕ) (p : List UInt8) :
    (r.copyout d va p).map Prod.fst = Xv6.copyout r.mem d va p.length := by
  induction hn : p.length using Nat.strong_induction_on generalizing r va p with
  | _ n ih =>
    subst hn
    rw [Ram.copyout, Xv6.copyout]
    split_ifs with hlen
    · cases huva : uva2ka r.mem d (pgrounddown va) with
      | none => rfl
      | some pa0 =>
        simp only [Option.bind_some]
        split_ifs
        · rfl
        · rw [ih _ _ _ _ _ rfl]
          · simp [List.length_drop]
          · rw [List.length_drop]
            unfold pgrounddown pgsize
            omega
    · rfl

/-! ## Growing and shrinking -/

namespace Ram

/-- `kalloc`. -/
def kalloc (r : Ram) : Option ℕ × Ram :=
  match Xv6.kalloc r.mem with
  | (f, m) => (f, { r with mem := m })

/-- `kfree`, which fills the page with 1s. -/
def kfree (img : KernelImage) (r : Ram) (v : ℕ) : Option Ram :=
  (Xv6.kfree img r.mem v).map fun m => { r.fill v 1 with mem := m }

/-- `mappages`. -/
def mappages (pgdir va size pa : ℕ) (perm : Perm) (r : Ram) : Option (Bool × Ram) :=
  (Xv6.mappages pgdir va size pa perm r.mem).map fun (ok, m) => (ok, { r with mem := m })

/-- The loop of `deallocuvm`. -/
def deallocuvmFrom (img : KernelImage) (pgdir oldsz a : ℕ) (r : Ram) : Option Ram :=
  if _h : a < oldsz then
    match walkpgdir r.mem pgdir a false with
    | (none, _) => deallocuvmFrom img pgdir oldsz ((a / 2 ^ 22 + 1) * 2 ^ 22) r
    | (some (pgtab, i), _) =>
        let pte := r.mem.page pgtab i
        if pte.p then
          if pte.addr = 0 then none
          else
            (kfree img r (p2v pte.addr)).bind fun r =>
              deallocuvmFrom img pgdir oldsz (a + pgsize)
                { r with mem := setEntry r.mem pgtab i .zero }
        else deallocuvmFrom img pgdir oldsz (a + pgsize) r
  else some r
termination_by oldsz - a
decreasing_by
  · omega
  · unfold pgsize; omega
  · unfold pgsize; omega

/-- `deallocuvm`: the size it returns. -/
def deallocuvm (img : KernelImage) (pgdir oldsz newsz : ℕ) (r : Ram) : Option (ℕ × Ram) :=
  if newsz ≥ oldsz then some (oldsz, r)
  else (deallocuvmFrom img pgdir oldsz (pgroundup newsz) r).map fun r => (newsz, r)

/-- The loop of `allocuvm`: the size it returns, 0 on error. -/
def allocuvmFrom (img : KernelImage) (pgdir oldsz newsz a : ℕ) (r : Ram) : Option (ℕ × Ram) :=
  if _h : a < newsz then
    match kalloc r with
    | (none, r) => (deallocuvm img pgdir newsz oldsz r).map fun (_, r) => (0, r)
    | (some mem, r) =>
        (mappages pgdir a pgsize (v2p mem) ⟨true, true, 0⟩ (r.fill mem 0)).bind fun (ok, r) =>
          if ok then allocuvmFrom img pgdir oldsz newsz (a + pgsize) r
          else
            (deallocuvm img pgdir newsz oldsz r).bind fun (_, r) =>
              (kfree img r mem).map fun r => (0, r)
  else some (newsz, r)
termination_by newsz - a
decreasing_by unfold pgsize; omega

/-- `allocuvm`. -/
def allocuvm (img : KernelImage) (pgdir oldsz newsz : ℕ) (r : Ram) : Option (ℕ × Ram) :=
  if newsz ≥ kernbase then some (0, r)
  else if newsz < oldsz then some (oldsz, r)
  else allocuvmFrom img pgdir oldsz newsz (pgroundup oldsz) r

/-! ### Forgetting the bytes -/

variable {img : KernelImage}

theorem kfree_mem (r : Ram) (v : ℕ) : (r.kfree img v).map mem = Xv6.kfree img r.mem v := by
  simp [kfree, Function.comp_def]

theorem deallocuvmFrom_mem (r : Ram) (d oldsz a : ℕ) :
    (r.deallocuvmFrom img d oldsz a).map mem = Xv6.deallocuvmFrom img d oldsz a r.mem := by
  induction hn : oldsz - a using Nat.strong_induction_on generalizing a r with
  | _ n ih =>
    subst hn
    rw [deallocuvmFrom, Xv6.deallocuvmFrom]
    split_ifs with ha
    · rw [walkpgdir_false]
      have hnext : oldsz - (a + pgsize) < oldsz - a := by unfold pgsize; omega
      have hskip : oldsz - (a / 2 ^ 22 + 1) * 2 ^ 22 < oldsz - a := by omega
      split_ifs with hp
      · dsimp only
        split_ifs with hpte haddr
        · rfl
        · rw [← kfree_mem]
          cases r.kfree img (p2v (r.mem.page (pageTable r.mem.page d (pdx a)) (ptx a)).addr) with
          | none => rfl
          | some r₁ =>
            rw [Option.map_some, Option.bind_some, Option.bind_some]
            generalize hr₂ : (⟨setEntry r₁.mem _ _ _, _⟩ : Ram) = r₂
            have hm₂ : setEntry r₁.mem (pageTable r.mem.page d (pdx a)) (ptx a) .zero = r₂.mem := by
              rw [← hr₂]
            rw [hm₂]
            exact ih _ hnext r₂ _ rfl
        · rw [ih _ hnext _ _ rfl]
      · dsimp only
        exact ih _ hskip _ _ rfl
    · rfl

theorem deallocuvm_mem (r : Ram) (d oldsz newsz : ℕ) :
    (r.deallocuvm img d oldsz newsz).map (Prod.map id mem) =
      Xv6.deallocuvm img d oldsz newsz r.mem := by
  rw [deallocuvm, Xv6.deallocuvm]
  split_ifs
  · rfl
  · rw [← deallocuvmFrom_mem]
    simp [Function.comp_def]

theorem allocuvmFrom_mem (r : Ram) (d oldsz newsz a : ℕ) :
    (r.allocuvmFrom img d oldsz newsz a).map (Prod.map id mem) =
      Xv6.allocuvmFrom img d oldsz newsz a r.mem := by
  induction hn : newsz - a using Nat.strong_induction_on generalizing a r with
  | _ n ih =>
    subst hn
    rw [allocuvmFrom, Xv6.allocuvmFrom]
    split_ifs with ha
    · unfold kalloc
      rcases Xv6.kalloc r.mem with ⟨_ | f, m₁⟩
      · simp only
        rw [← deallocuvm_mem { r with mem := m₁ }]
        simp [Function.comp_def]
      · simp only [mappages, fill_mem]
        rcases Xv6.mappages d a pgsize (v2p f) ⟨true, true, 0⟩ m₁ with _ | ⟨ok, m₂⟩
        · rfl
        · simp only [Option.map_some, Option.bind_some]
          split_ifs
          · exact ih _ (by unfold pgsize; omega) _ _ rfl
          · generalize hr₂ : (⟨m₂, _⟩ : Ram) = r₂
            have hm₂ : m₂ = r₂.mem := by rw [← hr₂]
            rw [hm₂, ← deallocuvm_mem]
            rcases deallocuvm img d newsz oldsz r₂ with _ | ⟨sz, r₃⟩
            · rfl
            · simp only [Option.map_some, Option.bind_some, Prod.map_snd, ← kfree_mem]
              simp [Function.comp_def]
    · rfl

end Ram

end Xv6
