import Xv6.Vm

/-!
# Address spaces

What a page directory owns and what it maps, read off the contents of its pages, and what the
functions of `vm.c` do to both. Every function is described by one lemma: which pages it moves
between the free list and the address space, and which addresses are mapped after it.
-/

namespace Xv6

open PageStore

/-- The page that an entry refers to, if it is present. -/
def Pte.pages (e : Pte) : Multiset ℕ := if e.p then {p2v e.addr} else 0

/-- The pages that the entries of a page table refer to. -/
def userPages (t : Fin 1024 → Pte) : Multiset ℕ := gather fun j => (t j).pages

/-- The page table of an entry of a page directory. -/
def pageTable (w : ℕ → Fin 1024 → Pte) (d : ℕ) (i : Fin 1024) : ℕ := p2v (w d i).addr

/-- The pages under one entry of a page directory: the page table, and in the user half the
pages it refers to. -/
def slotPages (w : ℕ → Fin 1024 → Pte) (d : ℕ) (i : Fin 1024) : Multiset ℕ :=
  if (w d i).p then
    pageTable w d i ::ₘ if i.val < 512 then userPages (w (pageTable w d i)) else 0
  else 0

/-- The pages of the address space with the page directory `d`. -/
def dirPages (w : ℕ → Fin 1024 → Pte) (d : ℕ) : Multiset ℕ := d ::ₘ gather (slotPages w d)

/-- The page of `va` is present. -/
def Mapped (w : ℕ → Fin 1024 → Pte) (d va : ℕ) : Prop :=
  (w d (pdx va)).p ∧ (w (pageTable w d (pdx va)) (ptx va)).p

instance (w : ℕ → Fin 1024 → Pte) (d va : ℕ) : Decidable (Mapped w d va) :=
  inferInstanceAs (Decidable (_ ∧ _))

/-- The pages that `kfree` accepts. -/
structure Allocatable (img : KernelImage) (f : ℕ) : Prop where
  /-- The address is a multiple of the page size. -/
  aligned : f % pgsize = 0
  /-- The page lies behind the kernel. -/
  kend_le : img.kend ≤ f
  /-- The page lies in physical memory. -/
  lt_phystop : f < kernbase + phystop

/-- Pages without duplicates that `kfree` accepts. -/
structure Sound (img : KernelImage) (pages : Multiset ℕ) : Prop where
  /-- No page occurs twice. -/
  nodup : pages.Nodup
  /-- Every page may be freed. -/
  allocatable : ∀ f ∈ pages, Allocatable img f

variable {img : KernelImage}

theorem Sound.mono {pages pages' : Multiset ℕ} (hsound : Sound img pages) (hle : pages' ≤ pages) :
    Sound img pages' :=
  ⟨Multiset.nodup_of_le hle hsound.nodup,
    fun f hf => hsound.allocatable f (Multiset.mem_of_le hle hf)⟩

/-- The addresses of pages of the free memory. -/
theorem Allocatable.bounds {f : ℕ} (hf : Allocatable img f) :
    f % 4096 = 0 ∧ 0x80100000 < f ∧ f < 0x8E000000 := by
  have haligned := hf.aligned
  have hlow := hf.kend_le
  have hhigh := hf.lt_phystop
  have hdata := img.data_le_end
  have hlink := img.kernlink_lt_data
  unfold pgsize at haligned
  unfold kernbase phystop at hhigh
  unfold kernlink kernbase extmem at hlink
  omega

theorem p2v_v2p {f : ℕ} (hf : Allocatable img f) : p2v (v2p f) = f := by
  have hbounds := hf.bounds
  unfold p2v v2p kernbase
  omega

/-- `kfree` accepts the pages of the free memory. -/
theorem kfree_eq {f : ℕ} (hf : Allocatable img f) (m : Mem) :
    kfree img m f = some (m.release (fun _ => Pte.junk) f) := by
  have hbounds := hf.bounds
  have hlow := hf.kend_le
  have hin : ¬ (f % pgsize ≠ 0 ∨ f < img.kend ∨ v2p f ≥ phystop) := by
    unfold v2p kernbase phystop pgsize
    omega
  rw [kfree, if_neg hin]

/-! ## Page directories in memory -/

variable {w w' : ℕ → Fin 1024 → Pte} {d : ℕ}

theorem self_mem_dirPages : d ∈ dirPages w d := Multiset.mem_cons_self _ _

theorem slotPages_le_dirPages (i : Fin 1024) : slotPages w d i ≤ dirPages w d :=
  (le_gather (slotPages w d) i).trans (Multiset.le_cons_self _ _)

theorem pageTable_mem_slotPages {i : Fin 1024} (hp : (w d i).p) :
    pageTable w d i ∈ slotPages w d i := by simp [slotPages, hp]

theorem pageTable_mem_dirPages {i : Fin 1024} (hp : (w d i).p) :
    pageTable w d i ∈ dirPages w d :=
  Multiset.mem_of_le (slotPages_le_dirPages i) (pageTable_mem_slotPages hp)

theorem nodup_dirPages :
    (dirPages w d).Nodup ↔ d ∉ gather (slotPages w d) ∧ (gather (slotPages w d)).Nodup := by
  rw [dirPages, Multiset.nodup_cons]

/-- A page table is not the page directory. -/
theorem pageTable_ne_self {i : Fin 1024} (hnodup : (dirPages w d).Nodup) (hp : (w d i).p) :
    pageTable w d i ≠ d := by
  intro heq
  have hmem : pageTable w d i ∈ gather (slotPages w d) :=
    mem_gather.mpr ⟨i, pageTable_mem_slotPages hp⟩
  rw [heq] at hmem
  exact (nodup_dirPages.mp hnodup).1 hmem

/-- Different entries of a page directory have different page tables. -/
theorem pageTable_inj {i j : Fin 1024} (hnodup : (dirPages w d).Nodup) (hi : (w d i).p)
    (hj : (w d j).p) (heq : pageTable w d i = pageTable w d j) : i = j := by
  have hmem : pageTable w d i ∈ slotPages w d j := by
    rw [heq]
    exact pageTable_mem_slotPages hj
  have hi' : pageTable w d i ∈ slotPages w d i := pageTable_mem_slotPages hi
  exact eq_of_mem_of_mem (nodup_dirPages.mp hnodup).2 hi' hmem

/-- The pages under an entry are read off the directory and the page table. -/
theorem slotPages_congr {i : Fin 1024} (hdir : w' d = w d)
    (htable : (w d i).p → w' (pageTable w d i) = w (pageTable w d i)) :
    slotPages w' d i = slotPages w d i := by
  have heq : pageTable w' d i = pageTable w d i := by rw [pageTable, pageTable, hdir]
  unfold slotPages
  rw [heq, hdir]
  split_ifs with hp <;> simp [htable, hp]

/-- What an address space owns is read off its own pages. -/
theorem dirPages_congr (hsame : ∀ f ∈ dirPages w d, w' f = w f) :
    dirPages w' d = dirPages w d := by
  have hdir := hsame d self_mem_dirPages
  refine congrArg (d ::ₘ ·) (gather_congr fun i => ?_)
  exact slotPages_congr hdir fun hp => hsame _ (pageTable_mem_dirPages hp)

/-- What an address space maps is read off its own pages. -/
theorem mapped_congr (hsame : ∀ f ∈ dirPages w d, w' f = w f) (va : ℕ) :
    Mapped w' d va ↔ Mapped w d va := by
  have hdir := hsame d self_mem_dirPages
  have heq : pageTable w' d (pdx va) = pageTable w d (pdx va) := by
    rw [pageTable, pageTable, hdir]
  unfold Mapped
  rw [heq, hdir]
  refine and_congr_right fun hp => ?_
  rw [hsame _ (pageTable_mem_dirPages hp)]

/-- Two addresses have the same indices if they lie in the same page. -/
theorem pdx_ptx_eq_iff {a b : ℕ} (ha : a < 2 ^ 32) (hb : b < 2 ^ 32) :
    (pdx b = pdx a ∧ ptx b = ptx a) ↔ b / 4096 = a / 4096 := by
  simp only [pdx, ptx, Fin.ext_iff, Fin.ofNat, Nat.reducePow]
  omega

theorem pdx_lt_iff {a : ℕ} (ha : a < 2 ^ 32) : (pdx a).val < 512 ↔ a < kernbase := by
  simp only [pdx, Fin.ofNat, Nat.reducePow, kernbase]
  omega

/-- Addresses of one page table are mapped only if the table is there. -/
theorem div_ne_of_mapped {a b : ℕ} (hp : ¬ (w d (pdx a)).p) (hmapped : Mapped w d b) :
    b / 2 ^ 22 ≠ a / 2 ^ 22 := by
  intro heq
  have hpdx : pdx b = pdx a := congrArg (Fin.ofNat 1024) heq
  exact hp (hpdx ▸ hmapped.1)

/-- Addresses of one page are mapped together. -/
theorem div_ne_of_mapped_of_not {a b : ℕ} (ha : a < 2 ^ 32) (hb : b < 2 ^ 32)
    (hp : ¬ (w (pageTable w d (pdx a)) (ptx a)).p) (hmapped : Mapped w d b) :
    b / 4096 ≠ a / 4096 := by
  intro heq
  obtain ⟨hpdx, hptx⟩ := (pdx_ptx_eq_iff ha hb).mpr heq
  have hpresent := hmapped.2
  rw [hpdx, hptx] at hpresent
  exact hp hpresent

/-! ## Changing one entry -/

variable {m m' : Mem}

/-- Replacing an entry of a page table. -/
theorem userPages_set (t : Fin 1024 → Pte) (j : Fin 1024) (e : Pte) :
    userPages (fun k => if k = j then e else t k) + (t j).pages = userPages t + e.pages := by
  have hsum := gather_update (f := fun k => (t k).pages)
    (g := fun k => (if k = j then e else t k).pages) (i := j) fun k hk => by simp [hk]
  simpa [userPages] using hsum

theorem setEntry_page_self (m : Mem) (page : ℕ) (i : Fin 1024) (e : Pte) :
    (setEntry m page i e).page page = fun j => if j = i then e else m.page page j :=
  write_page_self _ _ _

theorem setEntry_page_of_ne {page f : ℕ} (hne : f ≠ page) (i : Fin 1024) (e : Pte) :
    (setEntry m page i e).page f = m.page f := write_page_of_ne hne

theorem pageTable_congr {i : Fin 1024} (hdir : w' d = w d) : pageTable w' d i = pageTable w d i :=
  congrArg (fun t : Fin 1024 → Pte => p2v (t i).addr) hdir

/-- Writing an entry of a page table leaves the pages under the other entries of the directory
alone. -/
theorem setEntry_slotPages {i k : Fin 1024} (hnodup : (dirPages m.page d).Nodup)
    (hp : (m.page d i).p) (hk : k ≠ i) (j : Fin 1024) (e : Pte) :
    slotPages (setEntry m (pageTable m.page d i) j e).page d k = slotPages m.page d k := by
  refine slotPages_congr (setEntry_page_of_ne (pageTable_ne_self hnodup hp).symm j e) fun hkp => ?_
  exact setEntry_page_of_ne (fun heq => hk (pageTable_inj hnodup hkp hp heq)) j e

/-- Writing an entry of a page table: what the address space owns. -/
theorem setEntry_dirPages {i : Fin 1024} (hnodup : (dirPages m.page d).Nodup)
    (hp : (m.page d i).p) (j : Fin 1024) (e : Pte) :
    dirPages (setEntry m (pageTable m.page d i) j e).page d +
        (if i.val < 512 then (m.page (pageTable m.page d i) j).pages else 0) =
      dirPages m.page d + (if i.val < 512 then e.pages else 0) := by
  have hdir : (setEntry m (pageTable m.page d i) j e).page d = m.page d :=
    setEntry_page_of_ne (pageTable_ne_self hnodup hp).symm j e
  have hsum := gather_update (f := slotPages m.page d)
    (g := slotPages (setEntry m (pageTable m.page d i) j e).page d) (i := i)
    fun k hk => setEntry_slotPages hnodup hp hk j e
  have hslot : slotPages (setEntry m (pageTable m.page d i) j e).page d i +
      (if i.val < 512 then (m.page (pageTable m.page d i) j).pages else 0) =
      slotPages m.page d i + (if i.val < 512 then e.pages else 0) := by
    have htable : pageTable (setEntry m (pageTable m.page d i) j e).page d i =
        pageTable m.page d i := pageTable_congr hdir
    unfold slotPages
    rw [htable, hdir, if_pos hp, if_pos hp, setEntry_page_self]
    split_ifs
    · rw [Multiset.cons_add, Multiset.cons_add, userPages_set]
    · rfl
  refine add_right_cancel (b := slotPages m.page d i) ?_
  calc _ = d ::ₘ (gather (slotPages (setEntry m (pageTable m.page d i) j e).page d) +
        slotPages m.page d i +
          if i.val < 512 then (m.page (pageTable m.page d i) j).pages else 0) := by
        simp only [dirPages, Multiset.cons_add]
        congr 1
        abel
    _ = d ::ₘ (gather (slotPages m.page d) +
        (slotPages (setEntry m (pageTable m.page d i) j e).page d i +
          if i.val < 512 then (m.page (pageTable m.page d i) j).pages else 0)) := by
        rw [hsum, add_assoc]
    _ = _ := by
        rw [hslot]
        simp only [dirPages, Multiset.cons_add]
        congr 1
        abel

/-- Writing an entry of a page table: what the address space maps. -/
theorem setEntry_mapped {i : Fin 1024} (hnodup : (dirPages m.page d).Nodup)
    (hp : (m.page d i).p) (j : Fin 1024) (e : Pte) (va : ℕ) :
    Mapped (setEntry m (pageTable m.page d i) j e).page d va ↔
      if pdx va = i ∧ ptx va = j then e.p = true else Mapped m.page d va := by
  have hdir : (setEntry m (pageTable m.page d i) j e).page d = m.page d :=
    setEntry_page_of_ne (pageTable_ne_self hnodup hp).symm j e
  have htable : pageTable (setEntry m (pageTable m.page d i) j e).page d (pdx va) =
      pageTable m.page d (pdx va) := pageTable_congr hdir
  unfold Mapped
  rw [htable, hdir]
  by_cases hva : pdx va = i
  · rw [hva, setEntry_page_self]
    split_ifs <;> simp_all
  · rw [if_neg fun h => hva h.1]
    refine and_congr_right fun hvp => ?_
    rw [setEntry_page_of_ne fun heq => hva (pageTable_inj hnodup hvp hp heq)]

theorem userPages_zero : userPages (fun _ => Pte.zero) = 0 := gather_zero

/-- A page directory gets a new, empty page table. -/
structure NewTable (w w' : ℕ → Fin 1024 → Pte) (d f : ℕ) (i : Fin 1024) : Prop where
  /-- The entry is present. -/
  present : (w' d i).p
  /-- It refers to the new table. -/
  pageTable_eq : pageTable w' d i = f
  /-- The other entries stay. -/
  other : ∀ k, k ≠ i → w' d k = w d k
  /-- The table is added to the address space. -/
  dirPages_eq : dirPages w' d = f ::ₘ dirPages w d
  /-- Nothing is mapped by it. -/
  mapped_iff : ∀ va, Mapped w' d va ↔ Mapped w d va

/-- `walkpgdir`, when it creates a page table. -/
theorem newTable {f : ℕ} {i : Fin 1024} (hf : Allocatable img f) (hfresh : f ∉ dirPages m.page d)
    (hnodup : (dirPages m.page d).Nodup) (hp : ¬ (m.page d i).p) :
    NewTable m.page (setEntry (clearPage m f) d i (.present (v2p f) ⟨true, true, 0⟩)).page
      d f i := by
  have hne : f ≠ d := fun h => hfresh (h ▸ self_mem_dirPages)
  set w' := (setEntry (clearPage m f) d i (.present (v2p f) ⟨true, true, 0⟩)).page with hw'
  have hdir : w' d = fun k => if k = i then .present (v2p f) ⟨true, true, 0⟩ else m.page d k := by
    rw [hw', setEntry_page_self]
    funext k
    rw [clearPage, write_page_of_ne hne.symm]
  have hself : w' d i = .present (v2p f) ⟨true, true, 0⟩ := by simp [hdir]
  have hother : ∀ k, k ≠ i → w' d k = m.page d k := fun k hk => by simp [hdir, hk]
  have htable : pageTable w' d i = f := by
    rw [pageTable, hself]
    exact p2v_v2p hf
  have hzero : w' f = fun _ => .zero := by
    rw [hw', setEntry_page_of_ne hne, clearPage, write_page_self]
  have hpage : ∀ g, g ≠ d → g ≠ f → w' g = m.page g := fun g hd hgf => by
    rw [hw', setEntry_page_of_ne hd, clearPage, write_page_of_ne hgf]
  have hsame : ∀ k, k ≠ i → (m.page d k).p →
      w' (pageTable m.page d k) = m.page (pageTable m.page d k) := fun k hk hkp =>
    hpage _ (pageTable_ne_self hnodup hkp) fun h => hfresh (h ▸ pageTable_mem_dirPages hkp)
  have htables : ∀ k, k ≠ i → pageTable w' d k = pageTable m.page d k := fun k hk => by
    rw [pageTable, pageTable, hother k hk]
  have hselfp : (w' d i).p := by rw [hself]; rfl
  refine ⟨hselfp, htable, hother, ?_, fun va => ?_⟩
  · have hslots : ∀ k, k ≠ i → slotPages w' d k = slotPages m.page d k := by
      intro k hk
      unfold slotPages
      rw [htables k hk, hother k hk]
      split_ifs with hkp <;> simp [hsame k hk, hkp]
    have hnew : slotPages w' d i = {f} := by
      rw [slotPages, if_pos hselfp, htable, hzero, userPages_zero, ite_self]
      rfl
    have hold : slotPages m.page d i = 0 := by rw [slotPages, if_neg hp]
    have hsum := gather_update hslots
    rw [hold, hnew, add_zero] at hsum
    rw [dirPages, dirPages, hsum, add_comm, Multiset.singleton_add, Multiset.cons_swap]
  · unfold Mapped
    by_cases hva : pdx va = i
    · rw [hva, htable, hzero]
      simp [hp, Pte.zero]
    · rw [hother _ hva, htables _ hva]
      refine and_congr_right fun hvp => ?_
      rw [hsame _ hva hvp]

/-! ## `walkpgdir` and `mappages` -/

/-- `walkpgdir` without allocation. -/
theorem walkpgdir_false (m : Mem) (d va : ℕ) :
    walkpgdir m d va false =
      if (m.page d (pdx va)).p then (some (pageTable m.page d (pdx va), ptx va), m)
      else (none, m) := by
  simp [walkpgdir, pageTable]

/-- What `walkpgdir` does to an address space when it returns an entry for `va`. -/
structure Walked (m : Mem) (d va : ℕ) (m' : Mem) : Prop where
  /-- The page table is there. -/
  present : (m'.page d (pdx va)).p
  /-- A page table may have been taken from the free list. -/
  moves : Moves m (dirPages m.page d) m' (dirPages m'.page d)
  /-- The same addresses are mapped. -/
  mapped_iff : ∀ b, Mapped m'.page d b ↔ Mapped m.page d b
  /-- Other entries of the directory stay. -/
  other : ∀ i, i ≠ pdx va → m'.page d i = m.page d i

/-- `walkpgdir` with allocation returns an entry, or finds no free page. -/
theorem walkpgdir_true (hsound : Sound img (m.free + dirPages m.page d)) (va : ℕ) :
    walkpgdir m d va true = (none, m) ∧ m.free = [] ∨
      ∃ m', walkpgdir m d va true = (some (pageTable m'.page d (pdx va), ptx va), m') ∧
        Walked m d va m' := by
  by_cases hp : (m.page d (pdx va)).p
  · refine .inr ⟨m, ?_, ⟨hp, .refl _ _, fun _ => .rfl, fun _ _ => rfl⟩⟩
    simp [walkpgdir, hp, pageTable]
  · cases halloc : kalloc m with
    | mk f m₁ =>
      cases f with
      | none =>
        obtain ⟨rfl, hfree⟩ := alloc_eq_none halloc
        exact .inl ⟨by simp [walkpgdir, hp, halloc], hfree⟩
      | some f =>
        obtain ⟨hfree, hpage⟩ := alloc_eq_some halloc
        have hmem : f ∈ (m.free : Multiset ℕ) := by simp [hfree]
        have hf := hsound.allocatable f (Multiset.mem_add.mpr (.inl hmem))
        have hparts := Multiset.nodup_add.mp hsound.nodup
        have hfresh : f ∉ dirPages m₁.page d := by
          rw [hpage]
          exact Multiset.disjoint_left.mp hparts.2.2 hmem
        have hnodup : (dirPages m₁.page d).Nodup := by
          rw [hpage]
          exact hparts.2.1
        have hnew := newTable (i := pdx va) hf hfresh hnodup (by rwa [hpage])
        have hwalk : walkpgdir m d va true = (some (f, ptx va),
            setEntry (clearPage m₁ f) d (pdx va) (.present (v2p f) ⟨true, true, 0⟩)) := by
          simp [walkpgdir, hp, halloc]
        refine .inr ⟨_, by rw [hwalk, hnew.pageTable_eq], ⟨hnew.present, ?_, fun b => ?_, ?_⟩⟩
        · rw [hnew.dirPages_eq, hpage]
          have htake := Moves.alloc halloc (dirPages m.page d)
          have hclear := Moves.write (m := m₁) (Multiset.mem_cons_self f (dirPages m.page d))
            (fun _ => Pte.zero)
          have hset := Moves.write (m := clearPage m₁ f)
            (Multiset.mem_cons_of_mem (b := f) (self_mem_dirPages (w := m.page) (d := d)))
            (fun j => if j = pdx va then .present (v2p f) ⟨true, true, 0⟩
              else (clearPage m₁ f).page d j)
          exact (htake.trans hclear).trans hset
        · rw [hnew.mapped_iff, hpage]
        · intro i hi
          rw [hnew.other i hi, hpage]

/-- The pages that an entry for the address `a` adds to an address space. -/
def entryPages (a pa : ℕ) : Multiset ℕ := if a < kernbase then {p2v pa} else 0

/-- What `mappages` does to an address space when it has set the entry for `a`. -/
structure Entered (m : Mem) (d a pa : ℕ) (m' : Mem) : Prop where
  /-- The page joins the address space, if it is a user page. -/
  moves : Moves m (dirPages m.page d + entryPages a pa) m' (dirPages m'.page d)
  /-- The page of `a` is mapped in addition. -/
  mapped_iff : ∀ b < 2 ^ 32, Mapped m'.page d b ↔ Mapped m.page d b ∨ b / 4096 = a / 4096
  /-- Other entries of the directory stay. -/
  other : ∀ i, i ≠ pdx a → m'.page d i = m.page d i

/-- One round of `mappages` at an address that is not mapped. -/
theorem mappagesFrom_step {a : ℕ} (pa : ℕ) (perm : Perm)
    (hsound : Sound img (m.free + dirPages m.page d)) (ha : a < 2 ^ 32)
    (hunmapped : ¬ Mapped m.page d a) (n : ℕ) :
    mappagesFrom d perm n a pa m = some (false, m) ∧ m.free = [] ∨
      ∃ m', Entered m d a pa m' ∧
        mappagesFrom d perm n a pa m =
          match n with
          | 0 => some (true, m')
          | n + 1 => mappagesFrom d perm n (a + pgsize) (pa + pgsize) m' := by
  obtain ⟨hwalk, hfree⟩ | ⟨m₁, hwalk, hwalked⟩ := walkpgdir_true hsound a
  · refine .inl ⟨?_, hfree⟩
    rw [mappagesFrom, hwalk]
  · have hsound₁ : Sound img (m₁.free + dirPages m₁.page d) := by rwa [hwalked.moves.total]
    have hnodup := (Multiset.nodup_add.mp hsound₁.nodup).2.1
    have hold : ¬ (m₁.page (pageTable m₁.page d (pdx a)) (ptx a)).p := fun h =>
      hunmapped ((hwalked.mapped_iff a).mp ⟨hwalked.present, h⟩)
    set m' := setEntry m₁ (pageTable m₁.page d (pdx a)) (ptx a) (.present pa perm) with hm'
    have hdir : m'.page d = m₁.page d :=
      setEntry_page_of_ne (pageTable_ne_self hnodup hwalked.present).symm _ _
    have hpages : dirPages m'.page d = dirPages m₁.page d + entryPages a pa := by
      have h := setEntry_dirPages hnodup hwalked.present (ptx a) (.present pa perm)
      rw [if_congr (pdx_lt_iff ha) rfl rfl, if_congr (pdx_lt_iff ha) rfl rfl] at h
      have hnone : (m₁.page (pageTable m₁.page d (pdx a)) (ptx a)).pages = 0 := by
        rw [Pte.pages, if_neg hold]
      have hnew : (Pte.present pa perm).pages = {p2v pa} := rfl
      rw [hnone, ite_self, add_zero, hnew] at h
      exact h
    refine .inr ⟨m', ⟨(hwalked.moves.add _).trans ?_, fun b hb => ?_, fun i hi => ?_⟩, ?_⟩
    · rw [hpages]
      refine Moves.write ?_ _
      exact Multiset.mem_add.mpr (.inl (pageTable_mem_dirPages hwalked.present))
    · rw [setEntry_mapped hnodup hwalked.present, hwalked.mapped_iff]
      have hiff := pdx_ptx_eq_iff ha hb
      by_cases hpage : pdx b = pdx a ∧ ptx b = ptx a
      · simp [hpage, hiff.mp hpage, Pte.present]
      · rw [if_neg hpage, or_iff_left fun h => hpage (hiff.mpr h)]
    · rw [hdir]
      exact hwalked.other i hi
    · cases n with
      | zero =>
        rw [mappagesFrom, hwalk]
        dsimp only
        rw [if_neg hold]
      | succ n =>
        rw [mappagesFrom, hwalk]
        dsimp only
        rw [if_neg hold]

/-- `mappages` for one page. -/
theorem mappages_page {a : ℕ} (pa : ℕ) (perm : Perm)
    (hsound : Sound img (m.free + dirPages m.page d)) (haligned : a % 4096 = 0)
    (ha : a < kernbase) (hunmapped : ¬ Mapped m.page d a) :
    mappages d a pgsize pa perm m = some (false, m) ∧ m.free = [] ∨
      ∃ m', mappages d a pgsize pa perm m = some (true, m') ∧ Entered m d a pa m' := by
  unfold kernbase at ha
  have hstart : pgrounddown a = a := by unfold pgrounddown pgsize; omega
  have hlast : pgrounddown (wrapUint ((a : ℤ) + pgsize - 1)) = a := by
    unfold pgrounddown wrapUint pgsize
    omega
  have hmap : mappages d a pgsize pa perm m = mappagesFrom d perm 0 a pa m := by
    simp only [mappages, hstart, hlast, Nat.sub_self, Nat.zero_div]
  rw [hmap]
  obtain hfail | ⟨m', hentered, heq⟩ := mappagesFrom_step pa perm hsound (by omega)
    hunmapped 0
  · exact .inl hfail
  · exact .inr ⟨m', heq, hentered⟩

/-! ## `deallocuvm` and `freevm` -/

theorem setEntry_release {t f : ℕ} (hne : f ≠ t) (j : Fin 1024) (e junk : Pte) :
    setEntry (m.release (fun _ => junk) f) t j e =
      (setEntry m t j e).release (fun _ => junk) f := by
  simp only [setEntry, release, write, PageStore.mk.injEq, true_and]
  funext g
  by_cases hgt : g = t
  · simp [hgt, hne.symm]
  · simp [hgt]

/-- What `deallocuvm` does when it finds the page of `a` present: the page goes to the free list
and the entry is cleared. -/
structure Dropped (m : Mem) (d a : ℕ) (m' : Mem) : Prop where
  /-- The page leaves the address space. -/
  moves : Moves m (dirPages m.page d) m' (dirPages m'.page d)
  /-- The page of `a` is no longer mapped. -/
  mapped_iff : ∀ b < 2 ^ 32, Mapped m'.page d b ↔ Mapped m.page d b ∧ b / 4096 ≠ a / 4096
  /-- The directory stays. -/
  dir : m'.page d = m.page d

/-- The page of a mapped user address belongs to the address space, besides the directory. -/
theorem mem_slotPages_of_mapped {a : ℕ} (ha : a < kernbase) (hmapped : Mapped w d a) :
    p2v (w (pageTable w d (pdx a)) (ptx a)).addr ∈
      userPages (w (pageTable w d (pdx a))) ∧
      userPages (w (pageTable w d (pdx a))) ≤ dirPages w d := by
  have hlt : (pdx a).val < 512 := (pdx_lt_iff (by unfold kernbase at ha; omega)).mpr ha
  constructor
  · have hmem : p2v (w (pageTable w d (pdx a)) (ptx a)).addr ∈
        (w (pageTable w d (pdx a)) (ptx a)).pages := by simp [Pte.pages, hmapped.2]
    exact Multiset.mem_of_le
      (le_gather (fun j => (w (pageTable w d (pdx a)) j).pages) (ptx a)) hmem
  · refine le_trans ?_ (slotPages_le_dirPages (pdx a))
    rw [slotPages, if_pos hmapped.1, if_pos hlt]
    exact Multiset.le_cons_self _ _

/-- A user page is not the page table that refers to it. -/
theorem page_ne_pageTable {a : ℕ} (ha : a < kernbase) (hnodup : (dirPages w d).Nodup)
    (hmapped : Mapped w d a) :
    p2v (w (pageTable w d (pdx a)) (ptx a)).addr ≠ pageTable w d (pdx a) := by
  have hlt : (pdx a).val < 512 := (pdx_lt_iff (by unfold kernbase at ha; omega)).mpr ha
  have hslot : (slotPages w d (pdx a)).Nodup :=
    Multiset.nodup_of_le (slotPages_le_dirPages (pdx a)) hnodup
  rw [slotPages, if_pos hmapped.1, if_pos hlt, Multiset.nodup_cons] at hslot
  intro heq
  have hmem := (mem_slotPages_of_mapped ha hmapped).1
  rw [heq] at hmem
  exact hslot.1 hmem

/-- `kfree(v); *pte = 0;` for a present page. -/
theorem dropped {a : ℕ} (hsound : Sound img (m.free + dirPages m.page d)) (ha : a < kernbase)
    (hmapped : Mapped m.page d a) :
    ∃ m₁, kfree img m (p2v (m.page (pageTable m.page d (pdx a)) (ptx a)).addr) = some m₁ ∧
      (m.page (pageTable m.page d (pdx a)) (ptx a)).addr ≠ 0 ∧
      Dropped m d a (setEntry m₁ (pageTable m.page d (pdx a)) (ptx a) .zero) := by
  have hnodup := (Multiset.nodup_add.mp hsound.nodup).2.1
  have hlt : (pdx a).val < 512 := (pdx_lt_iff (by unfold kernbase at ha; omega)).mpr ha
  have hne := page_ne_pageTable ha hnodup hmapped
  set t := pageTable m.page d (pdx a) with ht
  set f := p2v (m.page t (ptx a)).addr with hfdef
  have hmem : f ∈ dirPages m.page d := by
    have h := mem_slotPages_of_mapped ha hmapped
    exact Multiset.mem_of_le h.2 h.1
  have hf : Allocatable img f := hsound.allocatable f (Multiset.mem_add.mpr (.inr hmem))
  have haddr : (m.page t (ptx a)).addr ≠ 0 := by
    intro hzero
    have hbounds := hf.bounds
    rw [hfdef, hzero] at hbounds
    unfold p2v kernbase at hbounds
    omega
  refine ⟨_, kfree_eq hf m, haddr, ?_⟩
  rw [setEntry_release hne]
  have hpages : dirPages m.page d = f ::ₘ dirPages (setEntry m t (ptx a) .zero).page d := by
    have h := setEntry_dirPages hnodup hmapped.1 (ptx a) .zero
    rw [if_pos hlt, if_pos hlt, ← ht] at h
    have hold : (m.page t (ptx a)).pages = {f} := by rw [Pte.pages, if_pos hmapped.2]
    have hnew : Pte.zero.pages = 0 := rfl
    rw [hold, hnew, add_zero, add_comm, Multiset.singleton_add] at h
    exact h.symm
  have hfresh : f ∉ dirPages (setEntry m t (ptx a) .zero).page d := by
    rw [hpages] at hnodup
    exact (Multiset.nodup_cons.mp hnodup).1
  set m₂ := setEntry m t (ptx a) .zero with hm₂
  have hsame : ∀ g ∈ dirPages m₂.page d,
      (m₂.release (fun _ => Pte.junk) f).page g = m₂.page g := fun g hg =>
    write_page_of_ne fun heq => hfresh (heq ▸ hg)
  refine ⟨?_, fun b hb => ?_, ?_⟩
  · have hset : Moves m (dirPages m.page d) m₂ (dirPages m.page d) :=
      Moves.write (pageTable_mem_dirPages hmapped.1) _
    rw [dirPages_congr hsame]
    refine hset.trans ?_
    rw [hpages]
    exact Moves.release m₂ _ f _
  · rw [mapped_congr hsame, setEntry_mapped hnodup hmapped.1]
    have hiff := pdx_ptx_eq_iff (a := a) (b := b) (by unfold kernbase at ha; omega) hb
    by_cases hpage : pdx b = pdx a ∧ ptx b = ptx a
    · simp [hpage, hiff.mp hpage, Pte.zero]
    · rw [if_neg hpage]
      exact (and_iff_left fun h => hpage (hiff.mpr h)).symm
  · rw [hsame d self_mem_dirPages]
    exact setEntry_page_of_ne (pageTable_ne_self hnodup hmapped.1).symm _ _

/-- What `deallocuvm` does to an address space when it removes the pages from `a` up to the
last one below `oldsz`. -/
structure Shrunk (m : Mem) (d a oldsz : ℕ) (m' : Mem) : Prop where
  /-- Pages leave the address space. -/
  moves : Moves m (dirPages m.page d) m' (dirPages m'.page d)
  /-- The pages of the range are no longer mapped. -/
  mapped_iff : ∀ b < 2 ^ 32,
    Mapped m'.page d b ↔ Mapped m.page d b ∧ ¬ (a ≤ b ∧ b / 4096 * 4096 < oldsz)
  /-- The directory stays. -/
  dir : m'.page d = m.page d

/-- The loop of `deallocuvm`. -/
theorem deallocuvmFrom_spec {oldsz a : ℕ} (hold : oldsz ≤ kernbase) (haligned : a % 4096 = 0)
    (hsound : Sound img (m.free + dirPages m.page d)) :
    ∃ m', deallocuvmFrom img d oldsz a m = some m' ∧ Shrunk m d a oldsz m' := by
  -- the induction is on the bytes that remain
  induction hn : oldsz - a using Nat.strong_induction_on generalizing a m with
  | _ n ih =>
    subst hn
    rw [deallocuvmFrom]
    unfold kernbase at hold
    by_cases ha : a < oldsz
    · rw [dif_pos ha, walkpgdir_false]
      by_cases hp : (m.page d (pdx a)).p
      · rw [if_pos hp]
        by_cases hmapped : (m.page (pageTable m.page d (pdx a)) (ptx a)).p
        · obtain ⟨m₁, hfree, haddr, hdrop⟩ := dropped hsound (by unfold kernbase; omega)
            ⟨hp, hmapped⟩
          obtain ⟨m', hrest, hshrunk⟩ := ih _ (by unfold pgsize; omega)
            (a := a + pgsize) (by unfold pgsize; omega) (by rwa [hdrop.moves.total]) rfl
          refine ⟨m', ?_, hdrop.moves.trans hshrunk.moves, fun b hb => ?_,
            hshrunk.dir.trans hdrop.dir⟩
          · dsimp only
            rw [if_pos hmapped, if_neg haddr, hfree, Option.bind_some]
            exact hrest
          · rw [hshrunk.mapped_iff b hb, hdrop.mapped_iff b hb, and_assoc]
            refine and_congr_right fun _ => ?_
            unfold pgsize
            omega
        · obtain ⟨m', hrest, hshrunk⟩ := ih _ (by unfold pgsize; omega)
            (a := a + pgsize) (by unfold pgsize; omega) hsound rfl
          refine ⟨m', ?_, hshrunk.moves, fun b hb => ?_, hshrunk.dir⟩
          · dsimp only
            rwa [if_neg hmapped]
          · rw [hshrunk.mapped_iff b hb]
            refine and_congr_right fun hb' => ?_
            have hother := div_ne_of_mapped_of_not (by omega) hb hmapped hb'
            unfold pgsize
            omega
      · rw [if_neg hp]
        obtain ⟨m', hrest, hshrunk⟩ := ih _ (by omega)
          (a := (a / 2 ^ 22 + 1) * 2 ^ 22) (by omega) hsound rfl
        refine ⟨m', hrest, hshrunk.moves, fun b hb => ?_, hshrunk.dir⟩
        rw [hshrunk.mapped_iff b hb]
        refine and_congr_right fun hb' => ?_
        have hother := div_ne_of_mapped hp hb'
        omega
    · rw [dif_neg ha]
      refine ⟨m, rfl, .refl _ _, fun b _ => ?_, rfl⟩
      rw [iff_self_and]
      intro _
      omega

/-- `deallocuvm`. -/
theorem deallocuvm_spec (oldsz newsz : ℕ) (hold : oldsz ≤ kernbase) (hlt : newsz < oldsz)
    (hsound : Sound img (m.free + dirPages m.page d)) :
    ∃ m', deallocuvm img d oldsz newsz m = some (newsz, m') ∧
      Shrunk m d (pgroundup newsz) oldsz m' := by
  obtain ⟨m', hloop, hshrunk⟩ := deallocuvmFrom_spec (a := pgroundup newsz) hold
    (by unfold pgroundup pgsize; omega) hsound
  refine ⟨m', ?_, hshrunk⟩
  rw [deallocuvm, if_neg (by omega), hloop]
  rfl

end Xv6
