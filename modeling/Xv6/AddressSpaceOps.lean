import Xv6.AddressSpace

/-!
# Building, growing, copying and freeing address spaces

One lemma for each function of `vm.c`: it does not panic, moves pages only between the free list
and the address space, and maps or unmaps exactly the range it is asked for. A function that
runs out of memory gives back what it took.
-/

namespace Xv6

open PageStore

variable {img : KernelImage} {m m' : Mem} {w : ℕ → Fin 1024 → Pte} {d : ℕ}

/-! ## `freevm` -/

/-- The page tables of some entries of a page directory. -/
def tablePages (w : ℕ → Fin 1024 → Pte) (d : ℕ) (is : List (Fin 1024)) : Multiset ℕ :=
  (is.map fun i => if (w d i).p then {pageTable w d i} else 0).sum

/-- The address with the given indices. -/
theorem pdx_ptx_of_indices (i j : Fin 1024) :
    pdx (i.val * 2 ^ 22 + j.val * 2 ^ 12) = i ∧ ptx (i.val * 2 ^ 22 + j.val * 2 ^ 12) = j := by
  have hi := i.isLt
  have hj := j.isLt
  simp only [pdx, ptx, Fin.ext_iff, Fin.ofNat, Nat.reducePow]
  omega

/-- A page directory without user pages owns itself and its page tables. -/
theorem dirPages_of_unmapped (hunmapped : ∀ b < kernbase, ¬ Mapped w d b) :
    dirPages w d = d ::ₘ tablePages w d (List.finRange 1024) := by
  have hslots : ∀ i, slotPages w d i = if (w d i).p then {pageTable w d i} else 0 := by
    intro i
    unfold slotPages
    split_ifs with hp hi
    · have hzero : ∀ j, (w (pageTable w d i) j).pages = 0 := by
        intro j
        have hj := j.isLt
        have hindices := pdx_ptx_of_indices i j
        have hnot := hunmapped (i.val * 2 ^ 22 + j.val * 2 ^ 12) (by unfold kernbase; omega)
        rw [Mapped, hindices.1, hindices.2] at hnot
        rw [Pte.pages, if_neg fun h => hnot ⟨hp, h⟩]
      have hpages : userPages (w (pageTable w d i)) = 0 :=
        (gather_congr hzero).trans gather_zero
      rw [hpages]
      rfl
    · rfl
    · rfl
  have hgather : gather (slotPages w d) = tablePages w d (List.finRange 1024) := by
    rw [gather_congr hslots, gather_fin]
    rfl
  rw [dirPages, hgather]

/-- The loop of `freevm` over the page directory. -/
theorem freevmTables_spec {is : List (Fin 1024)}
    (hsound : Sound img (m.free + d ::ₘ tablePages m.page d is)) :
    ∃ m', freevmTables img d is m = some m' ∧
      Moves m (d ::ₘ tablePages m.page d is) m' {d} := by
  induction is generalizing m with
  | nil => exact ⟨m, rfl, .refl _ _⟩
  | cons i is ih =>
    rw [freevmTables]
    by_cases hp : (m.page d i).p
    · have hpages : tablePages m.page d (i :: is) =
          pageTable m.page d i ::ₘ tablePages m.page d is := by
        simp [tablePages, hp]
      rw [hpages] at hsound ⊢
      have hf := hsound.allocatable (pageTable m.page d i) (by simp)
      have hparts := (Multiset.nodup_add.mp hsound.nodup).2.1
      have hne : d ≠ pageTable m.page d i := fun h =>
        (Multiset.nodup_cons.mp hparts).1 (h ▸ Multiset.mem_cons_self _ _)
      have hfree := kfree_eq hf m
      set m₁ := m.release (fun _ => Pte.junk) (pageTable m.page d i) with hm₁
      have hdir : m₁.page d = m.page d := write_page_of_ne hne
      have htables : tablePages m₁.page d is = tablePages m.page d is := by
        unfold tablePages pageTable
        rw [hdir]
      have hmove : Moves m (d ::ₘ pageTable m.page d i ::ₘ tablePages m.page d is) m₁
          (d ::ₘ tablePages m.page d is) := by
        rw [Multiset.cons_swap]
        exact Moves.release m _ _ _
      rw [← hmove.total, ← htables] at hsound
      obtain ⟨m', hrest, hmoves⟩ := ih hsound
      rw [htables] at hmoves
      refine ⟨m', ?_, hmove.trans hmoves⟩
      have hfree' : kfree img m (p2v (m.page d i).addr) = some m₁ := hfree
      rw [if_pos hp, hfree', Option.bind_some]
      exact hrest
    · have hpages : tablePages m.page d (i :: is) = tablePages m.page d is := by
        simp [tablePages, hp]
      rw [hpages] at hsound ⊢
      rw [if_neg hp]
      exact ih hsound

/-- `freevm` gives back the whole address space. -/
theorem freevm_spec (hsound : Sound img (m.free + dirPages m.page d)) :
    ∃ m', freevm img d m = some m' ∧ Moves m (dirPages m.page d) m' 0 := by
  obtain ⟨m₁, hdealloc, hshrunk⟩ := deallocuvm_spec kernbase 0 le_rfl
    (by unfold kernbase; omega) hsound
  have hunmapped : ∀ b < kernbase, ¬ Mapped m₁.page d b := by
    intro b hb hmapped
    unfold kernbase at hb
    refine ((hshrunk.mapped_iff b (by omega)).mp hmapped).2 ?_
    unfold pgroundup pgsize kernbase
    omega
  have hsound₁ := hsound
  rw [← hshrunk.moves.total, dirPages_of_unmapped hunmapped] at hsound₁
  obtain ⟨m₂, htables, hmoves⟩ := freevmTables_spec hsound₁
  rw [← dirPages_of_unmapped hunmapped] at hmoves
  have hf : Allocatable img d :=
    hsound.allocatable d (Multiset.mem_add.mpr (.inr self_mem_dirPages))
  refine ⟨_, ?_, (hshrunk.moves.trans hmoves).trans (Moves.release m₂ (fun _ => Pte.junk) d 0)⟩
  rw [freevm, hdealloc, Option.bind_some]
  dsimp only
  rw [htables, Option.bind_some, kfree_eq hf]

/-! ## `setupkvm` -/

/-- A page directory without page tables for user addresses, and without pages from `top` on. -/
structure KernelOnly (w : ℕ → Fin 1024 → Pte) (d top : ℕ) : Prop where
  /-- No page tables in the user half. -/
  user : ∀ i : Fin 1024, i.val < 512 → ¬ (w d i).p
  /-- Nothing is mapped from `top` on. -/
  above : ∀ b < 2 ^ 32, top ≤ b → ¬ Mapped w d b

theorem KernelOnly.not_mapped {top : ℕ} (hkernel : KernelOnly w d top) {b : ℕ}
    (hb : b < kernbase) : ¬ Mapped w d b := by
  intro hmapped
  refine hkernel.user (pdx b) ((pdx_lt_iff ?_).mpr hb) hmapped.1
  unfold kernbase at hb
  omega

theorem KernelOnly.mono {top top' : ℕ} (hkernel : KernelOnly w d top) (hle : top ≤ top') :
    KernelOnly w d top' :=
  ⟨hkernel.user, fun b hb hb' => hkernel.above b hb (by omega)⟩

/-- An entry for a kernel address leaves the user half alone and owns nothing new. -/
theorem KernelOnly.entered {a pa : ℕ} (hkernel : KernelOnly m.page d a)
    (hentered : Entered m d a pa m') (hlow : kernbase ≤ a) (hhigh : a < 2 ^ 32)
    (haligned : a % 4096 = 0) :
    KernelOnly m'.page d (a + 4096) ∧ Moves m (dirPages m.page d) m' (dirPages m'.page d) := by
  refine ⟨⟨fun i hi => ?_, fun b hb hle hmapped => ?_⟩, ?_⟩
  · have hne : i ≠ pdx a := by
      intro heq
      have hlt := (pdx_lt_iff hhigh).mp (heq ▸ hi)
      omega
    rw [hentered.other i hne]
    exact hkernel.user i hi
  · rcases (hentered.mapped_iff b hb).mp hmapped with hold | hpage
    · exact hkernel.above b hb (by omega) hold
    · omega
  · have hmoves := hentered.moves
    rwa [entryPages, if_neg (by omega), add_zero] at hmoves

/-- The loop of `mappages` on a range of kernel addresses. -/
theorem mappagesFrom_kernel {n a : ℕ} (pa : ℕ) (perm : Perm) (hlow : kernbase ≤ a)
    (hhigh : a + n * 4096 < 2 ^ 32) (haligned : a % 4096 = 0) (hkernel : KernelOnly m.page d a)
    (hsound : Sound img (m.free + dirPages m.page d)) :
    ∃ ok m', mappagesFrom d perm n a pa m = some (ok, m') ∧
      Moves m (dirPages m.page d) m' (dirPages m'.page d) ∧
      KernelOnly m'.page d (a + (n + 1) * 4096) ∧ (ok = false → m'.free = []) := by
  induction n generalizing a pa m with
  | zero =>
    obtain ⟨hfail, hfree⟩ | ⟨m', hentered, heq⟩ := mappagesFrom_step pa perm
      hsound (by omega) (hkernel.above a (by omega) le_rfl) 0
    · exact ⟨false, m, hfail, .refl _ _, hkernel.mono (by omega), fun _ => hfree⟩
    · obtain ⟨hkernel', hmoves⟩ := hkernel.entered hentered hlow (by omega) haligned
      exact ⟨true, m', heq, hmoves, hkernel'.mono (by omega), by simp⟩
  | succ n ih =>
    obtain ⟨hfail, hfree⟩ | ⟨m₁, hentered, heq⟩ := mappagesFrom_step pa perm
      hsound (by omega) (hkernel.above a (by omega) le_rfl) (n + 1)
    · exact ⟨false, m, hfail, .refl _ _, hkernel.mono (by omega), fun _ => hfree⟩
    · obtain ⟨hkernel₁, hmoves₁⟩ := hkernel.entered hentered hlow (by omega) haligned
      rw [← hmoves₁.total] at hsound
      obtain ⟨ok, m', hrest, hmoves, hkernel', hfree⟩ := ih (a := a + pgsize)
        (pa + pgsize) (by omega) (by unfold pgsize; omega) (by unfold pgsize; omega) hkernel₁ hsound
      refine ⟨ok, m', heq.trans hrest, hmoves₁.trans hmoves, hkernel'.mono ?_, hfree⟩
      unfold pgsize
      omega

/-- `mappages` on a range of kernel addresses that ends on a page boundary. -/
theorem mappages_kernel {va size : ℕ} (pa : ℕ) (perm : Perm) (hlow : kernbase ≤ va)
    (hhigh : va + size ≤ 2 ^ 32) (hsize : 0 < size) (haligned : va % 4096 = 0)
    (hend : size % 4096 = 0) (hkernel : KernelOnly m.page d va)
    (hsound : Sound img (m.free + dirPages m.page d)) :
    ∃ ok m', mappages d va size pa perm m = some (ok, m') ∧
      Moves m (dirPages m.page d) m' (dirPages m'.page d) ∧
      KernelOnly m'.page d (va + size) ∧ (ok = false → m'.free = []) := by
  have hstart : pgrounddown va = va := by unfold pgrounddown pgsize; omega
  have hcount : (pgrounddown (wrapUint ((va : ℤ) + size - 1)) - va) / pgsize =
      size / 4096 - 1 := by
    unfold pgrounddown wrapUint pgsize
    omega
  have hmap : mappages d va size pa perm m =
      mappagesFrom d perm (size / 4096 - 1) va pa m := by
    simp only [mappages, hstart, hcount]
  obtain ⟨ok, m', heq, hmoves, hkernel', hfree⟩ := mappagesFrom_kernel (n := size / 4096 - 1)
    pa perm hlow (by omega) haligned hkernel hsound
  exact ⟨ok, m', hmap.trans heq, hmoves, hkernel'.mono (by omega), hfree⟩

/-- The entries of `kmap` from `top` on: ranges of kernel addresses, each behind the one before. -/
def Ascending : ℕ → List Kmap → Prop
  | _, [] => True
  | top, k :: ks =>
      let size := wrapUint ((k.physEnd : ℤ) - k.physStart)
      top ≤ k.virt ∧ k.virt + size ≤ 2 ^ 32 ∧ 0 < size ∧ k.virt % 4096 = 0 ∧ size % 4096 = 0 ∧
        Ascending (k.virt + size) ks

theorem ascending_kmap (img : KernelImage) : Ascending kernbase (kmap img) := by
  have haligned := img.data_aligned
  have hlink := img.kernlink_lt_data
  have hend := img.data_le_end
  have hmax := img.end_le
  unfold pgsize at haligned
  simp only [kernlink, kernbase, extmem] at hlink hmax
  simp only [kmap, Ascending, wrapUint, v2p, kernlink, kernbase, extmem, phystop, devspace]
  and_intros <;> first | omega | trivial

/-- A directory with kernel addresses only owns at most 513 pages. -/
theorem KernelOnly.card_le {top : ℕ} (hkernel : KernelOnly w d top) :
    Multiset.card (dirPages w d) ≤ 513 := by
  rw [dirPages_of_unmapped fun b hb => hkernel.not_mapped hb, Multiset.card_cons]
  have hcount : ∀ is : List (Fin 1024),
      Multiset.card (tablePages w d is) ≤ is.countP fun i => 512 ≤ i.val := by
    intro is
    induction is with
    | nil => simp [tablePages]
    | cons i is ih =>
      have hcons : tablePages w d (i :: is) =
          (if (w d i).p then {pageTable w d i} else 0) + tablePages w d is := by
        simp [tablePages]
      rw [hcons, Multiset.card_add, List.countP_cons]
      by_cases hp : (w d i).p
      · have hi : 512 ≤ i.val := by
          by_contra hlt
          exact hkernel.user i (by omega) hp
        simp [hp, hi]
        omega
      · simp only [hp]
        simp
        omega
  have htotal : (List.finRange 1024).countP (fun i => 512 ≤ i.val) = 512 := by decide +kernel
  have hle := hcount (List.finRange 1024)
  omega

/-- The loop of `setupkvm` over `kmap` builds the kernel half; if it runs out of pages, it gives
everything back. -/
theorem setupkvmMap_spec {ks : List Kmap} {top : ℕ} (hlow : kernbase ≤ top)
    (htop : top ≤ 2 ^ 32) (hascending : Ascending top ks) (hkernel : KernelOnly m.page d top)
    (hsound : Sound img (m.free + dirPages m.page d)) :
    (∃ m', setupkvmMap img d ks m = some (some d, m') ∧
      Moves m (dirPages m.page d) m' (dirPages m'.page d) ∧ KernelOnly m'.page d (2 ^ 32)) ∨
    ∃ m', setupkvmMap img d ks m = some (none, m') ∧ Moves m (dirPages m.page d) m' 0 ∧
      m.free.length + Multiset.card (dirPages m.page d) ≤ 513 := by
  induction ks generalizing top m with
  | nil => exact .inl ⟨m, rfl, .refl _ _, hkernel.mono htop⟩
  | cons k ks ih =>
    obtain ⟨hvirt, hhigh, hsize, haligned, hend, hrest⟩ := hascending
    obtain ⟨ok, m₁, hmap, hmoves₁, hkernel₁, hfree⟩ := mappages_kernel k.physStart
      k.perm (by omega) hhigh hsize haligned hend (hkernel.mono hvirt) hsound
    rw [← hmoves₁.total] at hsound
    rw [setupkvmMap, hmap, Option.bind_some]
    dsimp only
    cases ok with
    | true =>
      have hcard := congrArg Multiset.card hmoves₁.total
      simp only [Multiset.card_add, Multiset.coe_card] at hcard
      rw [← hcard]
      obtain ⟨m', hloop, hmoves, hkernel'⟩ | ⟨m', hloop, hmoves, hsmall⟩ :=
        ih (by omega) hhigh hrest hkernel₁ hsound
      · exact .inl ⟨m', hloop, hmoves₁.trans hmoves, hkernel'⟩
      · exact .inr ⟨m', hloop, hmoves₁.trans hmoves, hsmall⟩
    | false =>
      obtain ⟨m', hfreevm, hmoves⟩ := freevm_spec hsound
      refine .inr ⟨m', ?_, hmoves₁.trans hmoves, ?_⟩
      · simp [hfreevm]
      · have hcard := congrArg Multiset.card hmoves₁.total
        have hle := hkernel₁.card_le
        rw [hfree rfl] at hcard
        simp only [Multiset.card_add, Multiset.coe_card, List.length_nil, zero_add] at hcard
        omega

/-- `setupkvm` builds an address space without user pages; if it runs out of pages, it gives
everything back. -/
theorem setupkvm_spec (hsound : Sound img m.free) :
    (∃ d m', setupkvm img m = some (some d, m') ∧ Moves m 0 m' (dirPages m'.page d) ∧
      KernelOnly m'.page d (2 ^ 32)) ∨
    ∃ m', setupkvm img m = some (none, m') ∧ Moves m 0 m' 0 ∧ m.free.length ≤ 513 := by
  unfold setupkvm
  cases halloc : kalloc m with
  | mk f m₁ =>
    cases f with
    | none =>
      obtain ⟨rfl, hfree⟩ := alloc_eq_none halloc
      exact .inr ⟨_, rfl, .refl _ _, by simp [hfree]⟩
    | some d =>
      have hphystop : ¬ p2v phystop > devspace := by decide
      dsimp only
      rw [if_neg hphystop]
      have htake := Moves.alloc halloc 0
      have hclear := Moves.write (m := m₁) (Multiset.mem_cons_self d 0) (fun _ => Pte.zero)
      have hmoves₁ : Moves m 0 (clearPage m₁ d) (d ::ₘ 0) := htake.trans hclear
      have hdir : (clearPage m₁ d).page d = fun _ => .zero := write_page_self _ _ _
      have hkernel : KernelOnly (clearPage m₁ d).page d kernbase := by
        refine ⟨fun i _ => ?_, fun b _ _ hmapped => ?_⟩
        · simp [hdir, Pte.zero]
        · have hpresent := hmapped.1
          simp [hdir, Pte.zero] at hpresent
      have hpages : dirPages (clearPage m₁ d).page d = d ::ₘ 0 := by
        have hslots : ∀ i, slotPages (clearPage m₁ d).page d i = 0 := fun i => by
          simp [slotPages, hdir, Pte.zero]
        rw [dirPages, gather_congr hslots, gather_zero]
      rw [← hpages] at hmoves₁
      have hsound₁ : Sound img ((clearPage m₁ d).free + dirPages (clearPage m₁ d).page d) := by
        rw [hmoves₁.total, add_zero]
        exact hsound
      obtain ⟨m', hloop, hmoves, hkernel'⟩ | ⟨m', hloop, hmoves, hsmall⟩ :=
        setupkvmMap_spec (by unfold kernbase; omega) (by unfold kernbase; omega)
          (ascending_kmap img) hkernel hsound₁
      · exact .inl ⟨d, m', hloop, hmoves₁.trans hmoves, hkernel'⟩
      · refine .inr ⟨m', hloop, hmoves₁.trans hmoves, ?_⟩
        have hcard := congrArg Multiset.card hmoves₁.total
        simp only [Multiset.card_add, Multiset.coe_card, Multiset.card_zero] at hcard
        omega

/-! ## `allocuvm` -/

/-- What a computation does to an address space that then maps the page of `b` if `P b`. -/
structure Remaps (m : Mem) (d : ℕ) (P : ℕ → Prop) (m' : Mem) : Prop where
  /-- Pages move between the free list and the address space. -/
  moves : Moves m (dirPages m.page d) m' (dirPages m'.page d)
  /-- What is mapped. -/
  mapped_iff : ∀ b < 2 ^ 32, Mapped m'.page d b ↔ P b

/-- `mappages` of one page takes at most one page for a page table. -/
theorem mappages_length {a pa : ℕ} {perm : Perm} {ok : Bool} (ha : a < kernbase)
    (haligned : a % 4096 = 0) (hmap : mappages d a pgsize pa perm m = some (ok, m')) :
    m.free.length ≤ m'.free.length + 1 := by
  unfold kernbase at ha
  have hstart : pgrounddown a = a := by unfold pgrounddown pgsize; omega
  have hlast : pgrounddown (wrapUint ((a : ℤ) + pgsize - 1)) = a := by
    unfold pgrounddown wrapUint pgsize
    omega
  simp only [Xv6.mappages, hstart, hlast, Nat.sub_self, Nat.zero_div] at hmap
  have hwalk : ∀ e m₁, walkpgdir m d a true = (e, m₁) → m.free.length ≤ m₁.free.length + 1 := by
    intro e m₁ hwalk
    unfold walkpgdir at hwalk
    cases halloc : kalloc m with
    | mk f m₂ =>
      rw [halloc] at hwalk
      cases f with
      | none =>
        obtain ⟨rfl, -⟩ := alloc_eq_none halloc
        dsimp only at hwalk
        split_ifs at hwalk <;> obtain ⟨-, rfl⟩ := Prod.mk.inj hwalk <;> omega
      | some f =>
        have hfree := (alloc_eq_some halloc).1
        dsimp only at hwalk
        split_ifs at hwalk with hp hfalse
        · obtain ⟨-, rfl⟩ := Prod.mk.inj hwalk
          omega
        · exact absurd hfalse (by decide)
        · obtain ⟨-, rfl⟩ := Prod.mk.inj hwalk
          rw [hfree]
          exact le_rfl
  rw [mappagesFrom] at hmap
  generalize hres : walkpgdir m d a true = res at hmap
  obtain ⟨_ | ⟨pgtab, i⟩, m₁⟩ := res
  · obtain ⟨-, rfl⟩ := Prod.mk.inj (Option.some.inj hmap)
    exact hwalk _ _ hres
  · dsimp only at hmap
    split_ifs at hmap
    obtain ⟨-, rfl⟩ := Prod.mk.inj (Option.some.inj hmap)
    have hlength := hwalk _ _ hres
    exact hlength

/-- Taking a page from the free list and mapping it at the unmapped address `a`: if `mappages`
fails, the page is still held and nothing else has happened. -/
theorem mapNew {a f : ℕ} {m₁ : Mem} (perm : Perm) (hsound : Sound img (m.free + dirPages m.page d))
    (haligned : a % 4096 = 0) (ha : a < kernbase) (hunmapped : ¬ Mapped m.page d a)
    (halloc : kalloc m = (some f, m₁)) :
    Allocatable img f ∧ m₁.page = m.page ∧ Sound img (m₁.free + f ::ₘ dirPages m₁.page d) ∧
      (mappages d a pgsize (v2p f) perm m₁ = some (false, m₁) ∧ m₁.free = [] ∨
        ∃ m₂, mappages d a pgsize (v2p f) perm m₁ = some (true, m₂) ∧
          Remaps m d (fun b => Mapped m.page d b ∨ b / 4096 = a / 4096) m₂) := by
  have hpage := (alloc_eq_some halloc).2
  have htake := Moves.alloc halloc (dirPages m.page d)
  have hsound₁ : Sound img (m₁.free + f ::ₘ dirPages m₁.page d) := by
    rw [hpage]
    rwa [htake.total]
  have hf : Allocatable img f := hsound₁.allocatable f (by simp)
  have hsmall : Sound img (m₁.free + dirPages m₁.page d) :=
    hsound₁.mono (add_le_add_right (Multiset.le_cons_self _ _) _)
  refine ⟨hf, hpage, hsound₁, ?_⟩
  obtain hfail | ⟨m₂, hmap, hentered⟩ := mappages_page (v2p f) perm hsmall
    haligned ha (by rwa [hpage])
  · exact .inl hfail
  · refine .inr ⟨m₂, hmap, ?_, fun b hb => ?_⟩
    · have h := hentered.moves
      rw [entryPages, if_pos ha, p2v_v2p hf, add_comm, Multiset.singleton_add, hpage] at h
      exact htake.trans h
    · rw [hentered.mapped_iff b hb, hpage]

/-- Taking a page from the free list leaves what is sound sound. -/
theorem sound_kalloc {f : ℕ} {held : Multiset ℕ} (hsound : Sound img (m.free + held))
    (halloc : kalloc m = (some f, m')) : Allocatable img f ∧ Sound img (m'.free + held) := by
  have hfree : (m.free : Multiset ℕ) = f ::ₘ m'.free := by
    rw [(alloc_eq_some halloc).1, ← Multiset.cons_coe]
  rw [hfree] at hsound
  refine ⟨hsound.allocatable f (by simp), hsound.mono ?_⟩
  exact add_le_add_left (Multiset.le_cons_self _ _) _

/-- Giving a held page back does not touch an address space. -/
theorem release_frame {f : ℕ} (hnodup : (f ::ₘ dirPages m.page d).Nodup) :
    dirPages (m.release (fun _ => Pte.junk) f).page d = dirPages m.page d ∧
      ∀ b, Mapped (m.release (fun _ => Pte.junk) f).page d b ↔ Mapped m.page d b := by
  have hfresh := (Multiset.nodup_cons.mp hnodup).1
  have hsame : ∀ g ∈ dirPages m.page d,
      (m.release (fun _ => Pte.junk) f).page g = m.page g := fun g hg =>
    write_page_of_ne fun heq => hfresh (heq ▸ hg)
  exact ⟨dirPages_congr hsame, mapped_congr hsame⟩

/-- The loop of `allocuvm`. If memory runs out, the pages from `PGROUNDUP(oldsz)` on are
removed. -/
theorem allocuvmFrom_spec {oldsz newsz a : ℕ} (hnew : newsz < kernbase)
    (haligned : a % 4096 = 0) (hold : pgroundup oldsz ≤ a) (hle : oldsz ≤ a)
    (habove : ∀ b < kernbase, a ≤ b → ¬ Mapped m.page d b)
    (hsound : Sound img (m.free + dirPages m.page d)) :
    (∃ m', allocuvmFrom img d oldsz newsz a m = some (newsz, m') ∧
      Remaps m d (fun b => Mapped m.page d b ∨ a ≤ b ∧ b / 4096 * 4096 < newsz) m') ∨
    ∃ m', allocuvmFrom img d oldsz newsz a m = some (0, m') ∧
      Remaps m d (fun b => Mapped m.page d b ∧
        ¬ (pgroundup oldsz ≤ b ∧ b / 4096 * 4096 < newsz)) m' := by
  induction hn : newsz - a using Nat.strong_induction_on generalizing a m with
  | _ n ih =>
    subst hn
    rw [allocuvmFrom]
    unfold kernbase at hnew
    by_cases ha : a < newsz
    · rw [dif_pos ha]
      cases halloc : kalloc m with
      | mk f m₁ =>
        cases f with
        | none =>
          obtain ⟨rfl, -⟩ := alloc_eq_none halloc
          obtain ⟨m', hdealloc, hshrunk⟩ := deallocuvm_spec newsz oldsz
            (by unfold kernbase; omega) (by omega) hsound
          exact .inr ⟨m', by simp [hdealloc], ⟨hshrunk.moves, hshrunk.mapped_iff⟩⟩
        | some f =>
          have htake := Moves.alloc halloc (dirPages m.page d)
          obtain ⟨hf, hpage, hsound₁, hmap⟩ := mapNew ⟨true, true, 0⟩ hsound haligned
            (by unfold kernbase; omega) (habove a (by unfold kernbase; omega) le_rfl) halloc
          dsimp only
          obtain ⟨hmap, -⟩ | ⟨m₂, hmap, hgrown⟩ := hmap
          · -- the page is given back after the other new pages
            rw [hmap, Option.bind_some]
            obtain ⟨m₂, hdealloc, hshrunk⟩ := deallocuvm_spec newsz oldsz
              (by unfold kernbase; omega) (by omega)
              (hsound₁.mono (add_le_add_right (Multiset.le_cons_self _ _) _))
            have hmoves := hshrunk.moves.cons f
            have hnodup := hsound₁.nodup
            rw [← hmoves.total] at hnodup
            obtain ⟨hpages, hmapped⟩ := release_frame (Multiset.nodup_add.mp hnodup).2.1
            refine .inr ⟨m₂.release (fun _ => Pte.junk) f, ?_, ⟨?_, fun b hb => ?_⟩⟩
            · simp [hdealloc, kfree_eq hf]
            · rw [hpages]
              rw [hpage] at hmoves
              exact (htake.trans hmoves).trans (Moves.release m₂ (fun _ => Pte.junk) f _)
            · rw [hmapped, hshrunk.mapped_iff b hb, hpage]
          · rw [hmap, Option.bind_some]
            have habove₂ : ∀ b < kernbase, a + pgsize ≤ b → ¬ Mapped m₂.page d b := by
              intro b hb hle' hmapped
              unfold kernbase at hb
              unfold pgsize at hle'
              rcases (hgrown.mapped_iff b (by omega)).mp hmapped with h | h
              · exact habove b (by unfold kernbase; omega) (by omega) h
              · omega
            have hsound₂ : Sound img (m₂.free + dirPages m₂.page d) := by rwa [hgrown.moves.total]
            obtain ⟨m', hloop, hremaps⟩ | ⟨m', hloop, hremaps⟩ := ih _ (by unfold pgsize; omega)
              (a := a + pgsize) (by unfold pgsize; omega) (by unfold pgsize; omega)
              (by unfold pgsize; omega) habove₂ hsound₂ rfl
            · refine .inl ⟨m', by simpa using hloop, hgrown.moves.trans hremaps.moves,
                fun b hb => ?_⟩
              rw [hremaps.mapped_iff b hb, hgrown.mapped_iff b hb, or_assoc]
              refine or_congr_right ?_
              unfold pgsize
              omega
            · refine .inr ⟨m', by simpa using hloop, hgrown.moves.trans hremaps.moves,
                fun b hb => ?_⟩
              rw [hremaps.mapped_iff b hb, hgrown.mapped_iff b hb]
              have hin : b / 4096 = a / 4096 →
                  pgroundup oldsz ≤ b ∧ b / 4096 * 4096 < newsz := by omega
              tauto
    · rw [dif_neg ha]
      refine .inl ⟨m, rfl, .refl _ _, fun b hb => ?_⟩
      rw [iff_self_or]
      omega

/-- `allocuvm`: it grows the address space up to `newsz`, or returns 0 and leaves the mapping as
it was. -/
theorem allocuvm_spec {oldsz : ℕ} (newsz : ℕ) (hold : oldsz ≤ kernbase)
    (habove : ∀ b < kernbase, pgroundup oldsz ≤ b → ¬ Mapped m.page d b)
    (hsound : Sound img (m.free + dirPages m.page d)) :
    (∃ m', allocuvm img d oldsz newsz m = some (max oldsz newsz, m') ∧ newsz < kernbase ∧
      Remaps m d
        (fun b => Mapped m.page d b ∨ pgroundup oldsz ≤ b ∧ b / 4096 * 4096 < newsz) m') ∨
    ∃ m', allocuvm img d oldsz newsz m = some (0, m') ∧ Remaps m d (Mapped m.page d) m' := by
  unfold kernbase at hold
  have haligned : pgroundup oldsz % 4096 = 0 := by unfold pgroundup pgsize; omega
  have hle : oldsz ≤ pgroundup oldsz := by unfold pgroundup pgsize; omega
  by_cases hnew : newsz < kernbase
  · by_cases hlt : newsz < oldsz
    · refine .inl ⟨m, ?_, hnew, .refl _ _, fun b _ => ?_⟩
      · rw [allocuvm, if_neg (by omega), if_pos hlt, max_eq_left hlt.le]
      · rw [iff_self_or]
        omega
    · have heq : allocuvm img d oldsz newsz m =
          allocuvmFrom img d oldsz newsz (pgroundup oldsz) m := by
        rw [allocuvm, if_neg (by omega), if_neg hlt]
      rw [heq, max_eq_right (by omega)]
      obtain ⟨m', hloop, hremaps⟩ | ⟨m', hloop, hremaps⟩ :=
        allocuvmFrom_spec hnew haligned le_rfl hle habove hsound
      · exact .inl ⟨m', hloop, hnew, hremaps⟩
      · refine .inr ⟨m', hloop, hremaps.moves, fun b hb => ?_⟩
        rw [hremaps.mapped_iff b hb, and_iff_left_iff_imp]
        intro hmapped hin
        unfold kernbase at hnew
        exact habove b (by unfold kernbase; omega) hin.1 hmapped
  · refine .inr ⟨m, ?_, .refl _ _, fun _ _ => .rfl⟩
    rw [allocuvm, if_pos (by omega)]

/-- Exactly the pages below `sz` are mapped in the user half. -/
def Spans (w : ℕ → Fin 1024 → Pte) (d sz : ℕ) : Prop :=
  ∀ b < kernbase, Mapped w d b ↔ b < pgroundup sz

/-- `allocuvm` on an address space of size `oldsz`: unless it returns 0, the address space has
the larger one of the two sizes. -/
theorem allocuvm_spans {oldsz newsz r : ℕ} (hold : oldsz ≤ kernbase)
    (hspans : Spans m.page d oldsz) (hsound : Sound img (m.free + dirPages m.page d))
    (hcall : allocuvm img d oldsz newsz m = some (r, m')) :
    Moves m (dirPages m.page d) m' (dirPages m'.page d) ∧
      (r ≠ 0 → r = max oldsz newsz ∧ newsz < kernbase ∧ Spans m'.page d r) := by
  have habove : ∀ b < kernbase, pgroundup oldsz ≤ b → ¬ Mapped m.page d b := fun b hb hle h =>
    absurd ((hspans b hb).mp h) (by omega)
  obtain ⟨m₁, halloc, hnew, hremaps⟩ | ⟨m₁, halloc, hremaps⟩ :=
    allocuvm_spec newsz hold habove hsound
  · obtain ⟨rfl, rfl⟩ : max oldsz newsz = r ∧ m₁ = m' := by simpa [halloc] using hcall
    refine ⟨hremaps.moves, fun _ => ⟨rfl, hnew, fun b hb => ?_⟩⟩
    have hb' := hb
    unfold kernbase at hb hold hnew
    rw [hremaps.mapped_iff b (by omega), hspans b hb']
    unfold pgroundup pgsize
    omega
  · obtain ⟨rfl, rfl⟩ : 0 = r ∧ m₁ = m' := by simpa [halloc] using hcall
    exact ⟨hremaps.moves, fun h => absurd rfl h⟩

/-! ## `copyuvm` -/

/-- The loop of `copyuvm`: the copy is complete, or memory runs out and the copy is given back,
or a page of the original is missing and the kernel panics. -/
theorem copyuvmFrom_spec {src sz i : ℕ} (hsz : sz < kernbase) (haligned : i % 4096 = 0)
    (habove : ∀ b < kernbase, i ≤ b → ¬ Mapped m.page d b)
    (hsound : Sound img (m.free + dirPages m.page d + dirPages m.page src)) :
    (∃ m', copyuvmFrom img src sz d i m = some (some d, m') ∧
      Remaps m d (fun b => Mapped m.page d b ∨ i ≤ b ∧ b / 4096 * 4096 < sz) m') ∨
    (∃ m', copyuvmFrom img src sz d i m = some (none, m') ∧ Moves m (dirPages m.page d) m' 0) ∨
    copyuvmFrom img src sz d i m = none ∧ ∃ b < sz, ¬ Mapped m.page src b := by
  induction hn : sz - i using Nat.strong_induction_on generalizing i m with
  | _ n ih =>
    subst hn
    rw [copyuvmFrom]
    unfold kernbase at hsz
    by_cases hi : i < sz
    · rw [dif_pos hi, walkpgdir_false]
      by_cases hp : (m.page src (pdx i)).p
      · rw [if_pos hp]
        dsimp only
        by_cases hmapped : (m.page (pageTable m.page src (pdx i)) (ptx i)).p
        · have hsmall : Sound img (m.free + dirPages m.page d) :=
            hsound.mono (Multiset.le_add_right _ _)
          simp only [hmapped, Bool.not_true, Bool.false_eq_true, if_false]
          cases halloc : kalloc m with
          | mk f m₁ =>
            cases f with
            | none =>
              obtain ⟨rfl, -⟩ := alloc_eq_none halloc
              obtain ⟨m', hfreevm, hmoves⟩ := freevm_spec hsmall
              exact .inr (.inl ⟨m', by simp [hfreevm], hmoves⟩)
            | some f =>
              have htake := Moves.alloc halloc (dirPages m.page d)
              obtain ⟨hf, hpage, hsound₁, hmap⟩ := mapNew
                (m.page (pageTable m.page src (pdx i)) (ptx i)).flags hsmall haligned
                (by unfold kernbase; omega) (habove i (by unfold kernbase; omega) le_rfl) halloc
              dsimp only
              obtain ⟨hmap, -⟩ | ⟨m₂, hmap, hgrown⟩ := hmap
              · rw [hmap, Option.bind_some]
                obtain ⟨hpages, -⟩ := release_frame (Multiset.nodup_add.mp hsound₁.nodup).2.1
                have hrelease := Moves.release m₁ (fun _ => Pte.junk) f (dirPages m₁.page d)
                rw [← hrelease.total, ← hpages] at hsound₁
                obtain ⟨m', hfreevm, hmoves⟩ := freevm_spec hsound₁
                rw [hpages, hpage] at hmoves
                rw [hpage] at hrelease
                refine .inr (.inl ⟨m', by simp [hfreevm, kfree_eq hf], ?_⟩)
                exact (htake.trans hrelease).trans hmoves
              · rw [hmap, Option.bind_some]
                have hsrc : ∀ g ∈ dirPages m.page src, m₂.page g = m.page g := fun g hg =>
                  hgrown.moves.page_of_mem_rest hsound.nodup hg
                have habove₂ : ∀ b < kernbase, i + pgsize ≤ b → ¬ Mapped m₂.page d b := by
                  intro b hb hle' hmapped
                  unfold kernbase at hb
                  unfold pgsize at hle'
                  rcases (hgrown.mapped_iff b (by omega)).mp hmapped with h | h
                  · exact habove b (by unfold kernbase; omega) (by omega) h
                  · omega
                have hsound₂ : Sound img
                    (m₂.free + dirPages m₂.page d + dirPages m₂.page src) := by
                  rwa [hgrown.moves.total, dirPages_congr hsrc]
                obtain ⟨m', hloop, hremaps⟩ | ⟨m', hloop, hmoves⟩ | ⟨hloop, b, hb, hnot⟩ :=
                  ih _ (by unfold pgsize; omega) (i := i + pgsize) (by unfold pgsize; omega)
                    habove₂ hsound₂ rfl
                · refine .inl ⟨m', by simpa using hloop, hgrown.moves.trans hremaps.moves,
                    fun b hb => ?_⟩
                  rw [hremaps.mapped_iff b hb, hgrown.mapped_iff b hb, or_assoc]
                  refine or_congr_right ?_
                  unfold pgsize
                  omega
                · exact .inr (.inl ⟨m', by simpa using hloop, hgrown.moves.trans hmoves⟩)
                · refine .inr (.inr ⟨by simpa using hloop, b, hb, ?_⟩)
                  rwa [← mapped_congr hsrc]
        · simp only [hmapped]
          refine .inr (.inr ⟨rfl, i, hi, fun h => hmapped h.2⟩)
      · rw [if_neg hp]
        exact .inr (.inr ⟨rfl, i, hi, fun h => hp h.1⟩)
    · rw [dif_neg hi]
      refine .inl ⟨m, rfl, .refl _ _, fun b hb => ?_⟩
      rw [iff_self_or]
      omega

/-- `copyuvm`: the copy maps the pages below `sz`, or null is returned and nothing has been
taken, or a page of the original is missing and the kernel panics. -/
theorem copyuvm_spec {src sz : ℕ} (hsz : sz < kernbase)
    (hsound : Sound img (m.free + dirPages m.page src)) :
    (∃ d m', copyuvm img src sz m = some (some d, m') ∧ Moves m 0 m' (dirPages m'.page d) ∧
      ∀ b < kernbase, Mapped m'.page d b ↔ b / 4096 * 4096 < sz) ∨
    (∃ m', copyuvm img src sz m = some (none, m') ∧ Moves m 0 m' 0) ∨
    copyuvm img src sz m = none ∧ ∃ b < sz, ¬ Mapped m.page src b := by
  have hfree : Sound img m.free := hsound.mono (Multiset.le_add_right _ _)
  obtain ⟨d, m₁, hsetup, hmoves₁, hkernel⟩ | ⟨m₁, hsetup, hmoves₁, -⟩ := setupkvm_spec hfree
  · have hsrc : ∀ g ∈ dirPages m.page src, m₁.page g = m.page g := fun g hg =>
      hmoves₁.page_of_mem_rest (by simpa using hsound.nodup) hg
    have hsound₁ : Sound img (m₁.free + dirPages m₁.page d + dirPages m₁.page src) := by
      rwa [hmoves₁.total, dirPages_congr hsrc, add_zero]
    have heq : copyuvm img src sz m = copyuvmFrom img src sz d 0 m₁ := by
      rw [copyuvm, hsetup, Option.bind_some]
    rw [heq]
    obtain ⟨m', hloop, hremaps⟩ | ⟨m', hloop, hmoves⟩ | ⟨hloop, b, hb, hnot⟩ :=
      copyuvmFrom_spec hsz (Nat.zero_mod _) (fun b hb _ => hkernel.not_mapped hb) hsound₁
    · refine .inl ⟨d, m', hloop, hmoves₁.trans hremaps.moves, fun b hb => ?_⟩
      have hnone := hkernel.not_mapped hb
      unfold kernbase at hb
      rw [hremaps.mapped_iff b (by omega), or_iff_right hnone, and_iff_right (Nat.zero_le b)]
    · exact .inr (.inl ⟨m', hloop, hmoves₁.trans hmoves⟩)
    · refine .inr (.inr ⟨hloop, b, hb, ?_⟩)
      rwa [← mapped_congr hsrc]
  · refine .inr (.inl ⟨m₁, ?_, hmoves₁⟩)
    rw [copyuvm, hsetup, Option.bind_some]

/-! ## `inituvm` and `clearpteu` -/

/-- `inituvm` maps one page, if two pages are free. -/
theorem inituvm_spec {sz : ℕ} (hsz : sz < pgsize) (hfree : 2 ≤ m.free.length)
    (hunmapped : ∀ b < kernbase, ¬ Mapped m.page d b)
    (hsound : Sound img (m.free + dirPages m.page d)) :
    ∃ m', inituvm d sz m = some m' ∧ Moves m (dirPages m.page d) m' (dirPages m'.page d) ∧
      m.free.length ≤ m'.free.length + 2 ∧ ∀ b < kernbase, Mapped m'.page d b ↔ b < 4096 := by
  rw [inituvm, if_neg (by omega)]
  cases halloc : kalloc m with
  | mk f m₁ =>
    cases f with
    | none =>
      obtain ⟨rfl, hnone⟩ := alloc_eq_none halloc
      simp [hnone] at hfree
    | some f =>
      have hlength := congrArg List.length (alloc_eq_some halloc).1
      obtain ⟨hf, hpage, hsound₁, hmap⟩ := mapNew ⟨true, true, 0⟩ hsound (Nat.zero_mod _)
        (by unfold kernbase; omega) (hunmapped 0 (by unfold kernbase; omega)) halloc
      obtain ⟨hmap, hnone⟩ | ⟨m₂, hmap, hgrown⟩ := hmap
      · rw [hnone, List.length_singleton] at hlength
        omega
      · have htable := mappages_length (by unfold kernbase; omega) (Nat.zero_mod _) hmap
        rw [List.length_cons] at hlength
        refine ⟨m₂, ?_, hgrown.moves, by omega, fun b hb => ?_⟩
        · dsimp only
          rw [hmap]
          rfl
        · have hnone := hunmapped b hb
          unfold kernbase at hb
          rw [hgrown.mapped_iff b (by omega), or_iff_right hnone]
          omega

/-- `clearpteu` takes only a permission away. -/
theorem clearpteu_spec {uva : ℕ} (hmapped : Mapped m.page d uva)
    (hsound : Sound img (m.free + dirPages m.page d)) :
    ∃ m', clearpteu d uva m = some m' ∧ Remaps m d (Mapped m.page d) m' := by
  have hnodup := (Multiset.nodup_add.mp hsound.nodup).2.1
  set e := m.page (pageTable m.page d (pdx uva)) (ptx uva) with he
  refine ⟨setEntry m (pageTable m.page d (pdx uva)) (ptx uva) { e with u := false }, ?_, ?_, ?_⟩
  · rw [clearpteu, walkpgdir_false, if_pos hmapped.1]
  · have hpages := setEntry_dirPages hnodup hmapped.1 (ptx uva) { e with u := false }
    have hsame : Pte.pages { e with u := false } = e.pages := rfl
    rw [hsame, ← he] at hpages
    rw [add_right_cancel hpages]
    exact Moves.write (pageTable_mem_dirPages hmapped.1) _
  · intro b _
    rw [setEntry_mapped hnodup hmapped.1]
    split_ifs with hpage
    · have hself := hmapped.2
      rw [← hpage.1, ← hpage.2] at hself
      simp only [Mapped, hpage, hmapped.1, he, true_and]
    · rfl

end Xv6
