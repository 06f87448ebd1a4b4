import Xv6.UserMemory
import Xv6.ProcessSize

/-!
# Growing and shrinking a process

What `growproc` does to the size of a process and to the contents of its memory. A page that is
mapped before and after a function of `vm.c` keeps its page table entry and its bytes, for the
functions write only to pages they take from the free list or give back to it.
-/

namespace Xv6

open PageStore

variable {img : KernelImage} {m m' : Mem} {w w' : ℕ → Fin 1024 → Pte} {d : ℕ}

/-! ## Entries that stay -/

/-- An entry is read off the pages of the address space. -/
theorem pte_congr (hsame : ∀ f ∈ dirPages w d, w' f = w f) (va : ℕ) :
    pte w' d va = pte w d va := by
  have hdir := hsame d self_mem_dirPages
  have htable : pageTable w' d (pdx va) = pageTable w d (pdx va) := pageTable_congr hdir
  unfold pte
  rw [htable, hdir]
  split_ifs with hp
  · rw [hsame _ (pageTable_mem_dirPages hp)]
  · rfl

/-- Writing an entry of a page table. -/
theorem setEntry_pte {i : Fin 1024} (hnodup : (dirPages m.page d).Nodup) (hp : (m.page d i).p)
    (j : Fin 1024) (e : Pte) (va : ℕ) :
    pte (setEntry m (pageTable m.page d i) j e).page d va =
      if pdx va = i ∧ ptx va = j then some e else pte m.page d va := by
  have hdir : (setEntry m (pageTable m.page d i) j e).page d = m.page d :=
    setEntry_page_of_ne (pageTable_ne_self hnodup hp).symm j e
  have htable : pageTable (setEntry m (pageTable m.page d i) j e).page d (pdx va) =
      pageTable m.page d (pdx va) := pageTable_congr hdir
  unfold pte
  rw [htable, hdir]
  by_cases hva : pdx va = i
  · rw [hva, setEntry_page_self, if_pos hp, if_pos hp]
    split_ifs <;> simp_all
  · have hne : ¬ (pdx va = i ∧ ptx va = j) := fun h => hva h.1
    rw [if_neg hne]
    by_cases hvp : (m.page d (pdx va)).p
    · rw [if_pos hvp, if_pos hvp,
        setEntry_page_of_ne fun heq => hva (pageTable_inj hnodup hvp hp heq)]
    · rw [if_neg hvp, if_neg hvp]

/-- `walkpgdir` keeps the entries of the page tables that are there. -/
theorem walkpgdir_pte {va b : ℕ} {e : Option (ℕ × Fin 1024)}
    (hsound : Sound img (m.free + dirPages m.page d)) (hwalk : walkpgdir m d va true = (e, m'))
    (hb : (m.page d (pdx b)).p) : pte m'.page d b = pte m.page d b := by
  by_cases hp : (m.page d (pdx va)).p
  · simp only [walkpgdir, hp, if_true, Prod.mk.injEq] at hwalk
    rw [← hwalk.2]
  · cases halloc : kalloc m with
    | mk f m₁ =>
      cases f with
      | none =>
        simp [walkpgdir, hp, halloc] at hwalk
        rw [← hwalk.2, (alloc_eq_none halloc).1]
      | some f =>
        obtain ⟨hfree, hpage⟩ := alloc_eq_some halloc
        simp [walkpgdir, hp, halloc] at hwalk
        obtain ⟨-, rfl⟩ := hwalk
        have hmem : f ∈ (m.free : Multiset ℕ) := by simp [hfree]
        have hfresh : f ∉ dirPages m.page d :=
          Multiset.disjoint_left.mp (Multiset.nodup_add.mp hsound.nodup).2.2 hmem
        have hnodup := (Multiset.nodup_add.mp hsound.nodup).2.1
        have hne : pdx b ≠ pdx va := fun heq => hp (heq ▸ hb)
        have hkept : ∀ g, g ≠ d → g ≠ f → (setEntry (clearPage m₁ f) d (pdx va)
            (.present (v2p f) ⟨true, true, 0⟩)).page g = m.page g := fun g hd hgf => by
          rw [setEntry_page_of_ne hd, clearPage, write_page_of_ne hgf, hpage]
        have hdir : (setEntry (clearPage m₁ f) d (pdx va)
            (.present (v2p f) ⟨true, true, 0⟩)).page d (pdx b) = m.page d (pdx b) := by
          have hdf : d ≠ f := fun h => hfresh (h ▸ self_mem_dirPages)
          rw [setEntry_page_self]
          dsimp only
          rw [if_neg hne, clearPage, write_page_of_ne hdf, hpage]
        unfold pte pageTable
        rw [hdir, if_pos hb, if_pos hb, hkept]
        · exact pageTable_ne_self hnodup hb
        · exact fun h => hfresh (h ▸ pageTable_mem_dirPages hb)

/-- `mappages` of one page keeps the entries of what is mapped. -/
theorem mappages_pte {a pa : ℕ} {perm : Perm} (hsound : Sound img (m.free + dirPages m.page d))
    (haligned : a % 4096 = 0) (ha : a < kernbase) (hunmapped : ¬ Mapped m.page d a)
    (hmap : mappages d a pgsize pa perm m = some (true, m')) :
    (∀ b < 2 ^ 32, Mapped m.page d b → pte m'.page d b = pte m.page d b) ∧
      pte m'.page d a = some (.present pa perm) := by
  unfold kernbase at ha
  have hstart : pgrounddown a = a := by unfold pgrounddown pgsize; omega
  have hlast : pgrounddown (wrapUint ((a : ℤ) + pgsize - 1)) = a := by
    unfold pgrounddown wrapUint pgsize
    omega
  simp only [mappages, hstart, hlast, Nat.sub_self, Nat.zero_div] at hmap
  obtain ⟨hwalk, -⟩ | ⟨m₁, hwalk, hwalked⟩ := walkpgdir_true hsound a
  · rw [mappagesFrom, hwalk] at hmap
    simp at hmap
  · have hsound₁ : Sound img (m₁.free + dirPages m₁.page d) := by rwa [hwalked.moves.total]
    have hnodup := (Multiset.nodup_add.mp hsound₁.nodup).2.1
    have hold : ¬ (m₁.page (pageTable m₁.page d (pdx a)) (ptx a)).p := fun h =>
      hunmapped ((hwalked.mapped_iff a).mp ⟨hwalked.present, h⟩)
    rw [mappagesFrom, hwalk] at hmap
    dsimp only at hmap
    rw [if_neg hold] at hmap
    obtain rfl := (Prod.mk.inj (Option.some.inj hmap)).2
    refine ⟨fun b hb hmapped => ?_, ?_⟩
    · have hne : ¬ (pdx b = pdx a ∧ ptx b = ptx a) := by
        intro hpage
        have hmapped₁ := (hwalked.mapped_iff b).mpr hmapped
        have hpresent := hmapped₁.2
        rw [hpage.1, hpage.2] at hpresent
        exact hold hpresent
      rw [setEntry_pte hnodup hwalked.present, if_neg hne]
      exact walkpgdir_pte hsound hwalk hmapped.1
    · rw [setEntry_pte hnodup hwalked.present, if_pos ⟨rfl, rfl⟩]

/-- Freeing the page of `a` and clearing its entry keeps the other entries. -/
theorem dropped_pte {a b : ℕ} {m₁ : Mem} (hsound : Sound img (m.free + dirPages m.page d))
    (ha : a < kernbase) (hb : b < 2 ^ 32) (hmapped : Mapped m.page d a)
    (hfree : kfree img m (p2v (m.page (pageTable m.page d (pdx a)) (ptx a)).addr) = some m₁)
    (hne : b / 4096 ≠ a / 4096) :
    pte (setEntry m₁ (pageTable m.page d (pdx a)) (ptx a) .zero).page d b = pte m.page d b := by
  have hnodup := (Multiset.nodup_add.mp hsound.nodup).2.1
  have hlt : (pdx a).val < 512 := (pdx_lt_iff (by unfold kernbase at ha; omega)).mpr ha
  have hself := page_ne_pageTable ha hnodup hmapped
  set t := pageTable m.page d (pdx a) with ht
  set f := p2v (m.page t (ptx a)).addr with hf
  have hmem : f ∈ dirPages m.page d := by
    have h := mem_slotPages_of_mapped ha hmapped
    exact Multiset.mem_of_le h.2 h.1
  have hok := hsound.allocatable f (Multiset.mem_add.mpr (.inr hmem))
  rw [kfree_eq hok] at hfree
  obtain rfl := Option.some.inj hfree
  have hfresh : f ∉ dirPages (setEntry m t (ptx a) .zero).page d := by
    have h := setEntry_dirPages hnodup hmapped.1 (ptx a) .zero
    have hold : (m.page t (ptx a)).pages = {f} := by rw [Pte.pages, if_pos hmapped.2]
    have hnew : Pte.zero.pages = 0 := rfl
    rw [if_pos hlt, if_pos hlt, ← ht, hold, hnew, add_zero, add_comm,
      Multiset.singleton_add] at h
    rw [← h] at hnodup
    exact (Multiset.nodup_cons.mp hnodup).1
  have hsame : ∀ g ∈ dirPages (setEntry m t (ptx a) .zero).page d,
      ((setEntry m t (ptx a) .zero).release (fun _ => Pte.junk) f).page g =
        (setEntry m t (ptx a) .zero).page g := fun g hg =>
    write_page_of_ne fun heq => hfresh (heq ▸ hg)
  have hpage : ¬ (pdx b = pdx a ∧ ptx b = ptx a) := by
    rw [pdx_ptx_eq_iff (by unfold kernbase at ha; omega) hb]
    exact hne
  rw [setEntry_release hself, pte_congr hsame, setEntry_pte hnodup hmapped.1, if_neg hpage]

/-! ## Contents that stay -/

namespace Ram

variable {r r' r'' : Ram}

/-- The byte at a user address, if its page is mapped. -/
def userByte (r : Ram) (d va : ℕ) : Option UInt8 :=
  (pte r.mem.page d va).bind fun e =>
    if e.p then some (r.byte (p2v e.addr + va % pgsize)) else none

/-- The free list and an address space have no page in common, and `kfree` accepts the pages. -/
def Safe (img : KernelImage) (r : Ram) (d : ℕ) : Prop :=
  Sound img (r.mem.free + dirPages r.mem.page d)

/-- What is mapped before and after keeps its entry and its byte. -/
structure Keeps (r : Ram) (d : ℕ) (r' : Ram) : Prop where
  /-- The page table entry. -/
  pte : ∀ b < kernbase, Mapped r.mem.page d b → Mapped r'.mem.page d b →
    pte r'.mem.page d b = pte r.mem.page d b
  /-- The contents. -/
  byte : ∀ b < kernbase, Mapped r.mem.page d b → Mapped r'.mem.page d b →
    r'.userByte d b = r.userByte d b

theorem Keeps.refl (r : Ram) (d : ℕ) : r.Keeps d r := ⟨fun _ _ _ _ => rfl, fun _ _ _ _ => rfl⟩

/-- Two computations one after the other, when what is mapped before and after both is mapped
in between. -/
theorem Keeps.trans (hfirst : r.Keeps d r') (hsecond : r'.Keeps d r'')
    (hbetween : ∀ b < kernbase, Mapped r.mem.page d b → Mapped r''.mem.page d b →
      Mapped r'.mem.page d b) : r.Keeps d r'' := by
  constructor
  · intro b hb hmapped hmapped'
    have hmid := hbetween b hb hmapped hmapped'
    rw [hsecond.pte b hb hmid hmapped', hfirst.pte b hb hmapped hmid]
  · intro b hb hmapped hmapped'
    have hmid := hbetween b hb hmapped hmapped'
    rw [hsecond.byte b hb hmid hmapped', hfirst.byte b hb hmapped hmid]

theorem userByte_of_mapped {b : ℕ} (hmapped : Mapped r.mem.page d b) :
    r.userByte d b = some (r.byte (ProcessMemory.userPage r.mem.page d b + b % pgsize)) := by
  rw [userByte, Xv6.pte, if_pos hmapped.1, Option.bind_some, if_pos hmapped.2]
  rfl

theorem userByte_of_not_mapped {b : ℕ} (hmapped : ¬ Mapped r.mem.page d b) :
    r.userByte d b = none := by
  unfold userByte Xv6.pte
  unfold Mapped at hmapped
  split_ifs with hp
  · rw [Option.bind_some, if_neg fun h => hmapped ⟨hp, h⟩]
  · rfl

/-- The page of a mapped address belongs to the address space. -/
theorem userPage_mem {b : ℕ} (hb : b < kernbase) (hmapped : Mapped w d b) :
    ProcessMemory.userPage w d b ∈ dirPages w d := by
  have h := mem_slotPages_of_mapped hb hmapped
  exact Multiset.mem_of_le h.2 h.1

/-- Filling another page does not touch the byte at a mapped address. -/
theorem fill_byte {b f : ℕ} (hsafe : Safe img r d) (hb : b < kernbase)
    (hmapped : Mapped r.mem.page d b) (haligned : f % 4096 = 0)
    (hne : ProcessMemory.userPage r.mem.page d b ≠ f) (v : UInt8) :
    (r.fill f v).byte (ProcessMemory.userPage r.mem.page d b + b % pgsize) =
      r.byte (ProcessMemory.userPage r.mem.page d b + b % pgsize) := by
  have hpage := (hsafe.allocatable _
    (Multiset.mem_add.mpr (.inr (userPage_mem hb hmapped)))).bounds
  unfold fill pgsize
  dsimp only
  rw [if_neg]
  omega

/-- Filling a page that does not belong to the address space. -/
theorem keeps_fill {f : ℕ} (hsafe : Safe img r d) (hf : Allocatable img f)
    (hfresh : f ∉ dirPages r.mem.page d) (v : UInt8) : r.Keeps d (r.fill f v) := by
  refine ⟨fun _ _ _ _ => rfl, fun b hb hmapped _ => ?_⟩
  have hmapped' : Mapped (r.fill f v).mem.page d b := hmapped
  rw [userByte_of_mapped hmapped, userByte_of_mapped hmapped']
  refine congrArg some (fill_byte hsafe hb hmapped hf.bounds.1 ?_ v)
  exact fun heq => hfresh (heq ▸ userPage_mem hb hmapped)

/-- A change of page tables that keeps the entries keeps the contents. -/
theorem keeps_of_pte (hbyte : r'.byte = r.byte)
    (hpte : ∀ b < kernbase, Mapped r.mem.page d b → Mapped r'.mem.page d b →
      Xv6.pte r'.mem.page d b = Xv6.pte r.mem.page d b) : r.Keeps d r' := by
  refine ⟨hpte, fun b hb hmapped hmapped' => ?_⟩
  rw [userByte, userByte, hpte b hb hmapped hmapped', hbyte]

/-! ## `deallocuvm` -/

/-- `kfree(v); *pte = 0;` for a present page. -/
theorem keeps_dropped {a : ℕ} {r₁ : Ram} (hsafe : Safe img r d) (ha : a < kernbase)
    (hmapped : Mapped r.mem.page d a)
    (hfree : r.kfree img (p2v (r.mem.page (pageTable r.mem.page d (pdx a)) (ptx a)).addr) =
      some r₁) :
    ∃ r₂ : Ram, r₂ =
        { r₁ with mem := setEntry r₁.mem (pageTable r.mem.page d (pdx a)) (ptx a) .zero } ∧
      Dropped r.mem d a r₂.mem ∧ Safe img r₂ d ∧ r.Keeps d r₂ := by
  have hfree' : r.kfree img (ProcessMemory.userPage r.mem.page d a) = some r₁ := hfree
  obtain ⟨m₁, hm₁, rfl⟩ := Option.map_eq_some_iff.mp hfree'
  obtain ⟨m₁', hm₁', -, hdrop⟩ := dropped hsafe ha hmapped
  obtain rfl : m₁ = m₁' := Option.some.inj (hm₁.symm.trans hm₁')
  have hnodup := (Multiset.nodup_add.mp hsafe.nodup).2.1
  have hf : Allocatable img (ProcessMemory.userPage r.mem.page d a) :=
    hsafe.allocatable _ (Multiset.mem_add.mpr (.inr (userPage_mem ha hmapped)))
  refine ⟨_, rfl, hdrop, ?_, ?_⟩
  · unfold Safe
    rwa [hdrop.moves.total]
  · have hpte : ∀ b < kernbase, Mapped r.mem.page d b →
        Mapped (setEntry m₁ (pageTable r.mem.page d (pdx a)) (ptx a) .zero).page d b →
        Xv6.pte (setEntry m₁ (pageTable r.mem.page d (pdx a)) (ptx a) .zero).page d b =
          Xv6.pte r.mem.page d b := by
      intro b hb _ hmapped'
      have hb' : b < 2 ^ 32 := by unfold kernbase at hb; omega
      exact dropped_pte hsafe ha hb' hmapped hm₁ ((hdrop.mapped_iff b hb').mp hmapped').2
    refine ⟨hpte, fun b hb hmappedb hmapped' => ?_⟩
    have hb' : b < 2 ^ 32 := by unfold kernbase at hb; omega
    have hne := ((hdrop.mapped_iff b hb').mp hmapped').2
    have hframe : ProcessMemory.userPage r.mem.page d b ≠
        ProcessMemory.userPage r.mem.page d a := fun heq =>
      hne (ProcessMemory.userPage_inj hnodup hb ha hmappedb hmapped heq)
    have hbyte := fill_byte hsafe hb hmappedb hf.bounds.1 hframe 1
    have hpage : ∀ x : Ram, Xv6.pte x.mem.page d b = Xv6.pte r.mem.page d b →
        x.userByte d b = some (x.byte (ProcessMemory.userPage r.mem.page d b + b % pgsize)) := by
      intro x hx
      rw [userByte, hx, Xv6.pte, if_pos hmappedb.1, Option.bind_some, if_pos hmappedb.2]
      rfl
    rw [hpage _ (hpte b hb hmappedb hmapped'), hpage r rfl]
    dsimp only
    rw [hbyte]

/-- The loop of `deallocuvm`. -/
theorem deallocuvmFrom_keeps {oldsz a : ℕ} (hold : oldsz ≤ kernbase) (haligned : a % 4096 = 0)
    (hsafe : Safe img r d) (hcall : r.deallocuvmFrom img d oldsz a = some r') :
    Shrunk r.mem d a oldsz r'.mem ∧ r.Keeps d r' := by
  have hshrunk : Shrunk r.mem d a oldsz r'.mem := by
    obtain ⟨m', hloop, hshrunk⟩ := deallocuvmFrom_spec hold haligned hsafe
    rw [← deallocuvmFrom_mem, hcall] at hloop
    obtain rfl := Option.some.inj hloop
    exact hshrunk
  refine ⟨hshrunk, ?_⟩
  clear hshrunk
  -- the induction is on the bytes that remain
  induction hn : oldsz - a using Nat.strong_induction_on generalizing a r with
  | _ n ih =>
    subst hn
    rw [deallocuvmFrom] at hcall
    have hnext : oldsz - (a + pgsize) < oldsz - a ∨ ¬ a < oldsz := by unfold pgsize; omega
    have halign : (a + pgsize) % 4096 = 0 := by unfold pgsize; omega
    by_cases ha : a < oldsz
    · rw [dif_pos ha, walkpgdir_false] at hcall
      by_cases hp : (r.mem.page d (pdx a)).p
      · rw [if_pos hp] at hcall
        dsimp only at hcall
        by_cases hmapped : (r.mem.page (pageTable r.mem.page d (pdx a)) (ptx a)).p
        · rw [if_pos hmapped] at hcall
          split_ifs at hcall
          obtain ⟨r₁, hfree, hrest⟩ := Option.bind_eq_some_iff.mp hcall
          obtain ⟨r₂, hr₂, hdrop, hsafe₂, hkeeps⟩ := keeps_dropped hsafe (by omega)
            ⟨hp, hmapped⟩ hfree
          rw [← hr₂] at hrest
          have hrest' := ih _ (hnext.resolve_right (by omega)) halign hsafe₂ hrest rfl
          obtain ⟨m', hloop, hshrunk⟩ := deallocuvmFrom_spec hold halign hsafe₂
          rw [← deallocuvmFrom_mem, hrest] at hloop
          obtain rfl := Option.some.inj hloop
          refine hkeeps.trans hrest' fun b hb _ hmapped' => ?_
          exact ((hshrunk.mapped_iff b (by unfold kernbase at hb; omega)).mp hmapped').1
        · rw [if_neg hmapped] at hcall
          exact ih _ (hnext.resolve_right (by omega)) halign hsafe hcall rfl
      · rw [if_neg hp] at hcall
        exact ih _ (by omega) (by omega) hsafe hcall rfl
    · rw [dif_neg ha] at hcall
      obtain rfl := Option.some.inj hcall
      exact .refl r d

/-! ## `allocuvm` -/

/-- A page from the free list does not belong to the address space. -/
theorem not_mem_of_kalloc {f : ℕ} {m₁ : Mem} (hsafe : Safe img r d)
    (halloc : Xv6.kalloc r.mem = (some f, m₁)) : f ∉ dirPages r.mem.page d := by
  have hmem : f ∈ (r.mem.free : Multiset ℕ) := by simp [(alloc_eq_some halloc).1]
  exact Multiset.disjoint_left.mp (Multiset.nodup_add.mp hsafe.nodup).2.2 hmem

/-- Taking a page and clearing it. -/
theorem keeps_cleared {f : ℕ} {m₁ : Mem} (hsafe : Safe img r d)
    (halloc : Xv6.kalloc r.mem = (some f, m₁)) :
    r.Keeps d { r.fill f 0 with mem := m₁ } := by
  have hf := (sound_kalloc hsafe halloc).1
  have hfill := keeps_fill hsafe hf (not_mem_of_kalloc hsafe halloc) 0
  have hpage := (alloc_eq_some halloc).2
  refine hfill.trans (keeps_of_pte rfl fun b _ _ _ => ?_) fun b _ hmapped _ => hmapped
  simp only [hpage, fill_mem]

/-- A cleared page that is mapped reads as zeroes. -/
theorem userByte_zero {f b : ℕ} {perm : Perm} {m₂ : Mem} (hf : Allocatable img f)
    (hpte : Xv6.pte m₂.page d b = some (.present (v2p f) perm)) :
    userByte { r.fill f 0 with mem := m₂ } d b = some 0 := by
  have hp : (Pte.present (v2p f) perm).p = true := rfl
  rw [userByte, hpte, Option.bind_some, if_pos hp]
  have hframe : p2v (Pte.present (v2p f) perm).addr = f := p2v_v2p hf
  rw [hframe]
  unfold fill
  dsimp only
  rw [if_pos ⟨Nat.le_add_right _ _, Nat.add_lt_add_left (Nat.mod_lt _ (by decide)) _⟩]

/-- `deallocuvm` after a failed allocation. -/
theorem deallocuvm_keeps {oldsz newsz : ℕ} {sz : ℕ} (hold : oldsz ≤ kernbase)
    (hsafe : Safe img r d) (hcall : r.deallocuvm img d oldsz newsz = some (sz, r')) :
    Safe img r' d ∧ r.Keeps d r' := by
  unfold deallocuvm at hcall
  split_ifs at hcall
  · obtain ⟨-, rfl⟩ := Prod.mk.inj (Option.some.inj hcall)
    exact ⟨hsafe, .refl r d⟩
  · obtain ⟨r₁, hloop, hr₁⟩ := Option.map_eq_some_iff.mp hcall
    obtain ⟨-, rfl⟩ := Prod.mk.inj hr₁
    obtain ⟨hshrunk, hkeeps⟩ := deallocuvmFrom_keeps hold
      (by unfold pgroundup pgsize; omega) hsafe hloop
    refine ⟨?_, hkeeps⟩
    unfold Safe
    rwa [hshrunk.moves.total]

/-- The end of a failed `allocuvm` that still holds a page. -/
theorem keeps_given {f oldsz newsz sz : ℕ} {r₁ : Ram} (hf : Allocatable img f)
    (hnew : newsz ≤ kernbase) (hle : oldsz ≤ newsz)
    (hsound : Sound img (r.mem.free + f ::ₘ dirPages r.mem.page d))
    (hdealloc : r.deallocuvm img d newsz oldsz = some (sz, r₁))
    (hfree : r₁.kfree img f = some r') : r.Keeps d r' := by
  have hsafe : Safe img r d :=
    hsound.mono (add_le_add_right (Multiset.le_cons_self _ _) _)
  obtain ⟨hsafe₁, hkeeps⟩ := deallocuvm_keeps hnew hsafe hdealloc
  have hmoves : Moves r.mem (dirPages r.mem.page d) r₁.mem (dirPages r₁.mem.page d) := by
    obtain rfl | hlt := hle.eq_or_lt
    · have hsame : r = r₁ := by simpa [deallocuvm] using congrArg (Option.map Prod.snd) hdealloc
      rw [← hsame]
      exact .refl _ _
    · obtain ⟨m', hmem, hshrunk⟩ := deallocuvm_spec newsz oldsz hnew hlt hsafe
      rw [← deallocuvm_mem, hdealloc] at hmem
      have hm' : r₁.mem = m' := congrArg Prod.snd (Option.some.inj hmem)
      exact hm' ▸ hshrunk.moves
  have hfresh : f ∉ dirPages r₁.mem.page d := by
    have hnodup := hsound.nodup
    rw [← (hmoves.cons f).total] at hnodup
    exact (Multiset.nodup_cons.mp (Multiset.nodup_add.mp hnodup).2.1).1
  obtain ⟨m₂, hm₂, rfl⟩ := Option.map_eq_some_iff.mp hfree
  rw [kfree_eq hf] at hm₂
  obtain rfl := Option.some.inj hm₂
  have hsame : ∀ g ∈ dirPages r₁.mem.page d,
      (r₁.mem.release (fun _ => Pte.junk) f).page g = r₁.mem.page g := fun g hg =>
    write_page_of_ne fun heq => hfresh (heq ▸ hg)
  have hfill := keeps_fill hsafe₁ hf hfresh 1
  have hreleased : (r₁.fill f 1).Keeps d
      { r₁.fill f 1 with mem := r₁.mem.release (fun _ => Pte.junk) f } :=
    keeps_of_pte rfl fun b _ _ _ => pte_congr hsame b
  refine (hkeeps.trans hfill fun b _ _ h => h).trans hreleased fun b _ _ h => ?_
  exact (mapped_congr hsame b).mp h

/-- One round of the loop of `allocuvm` that gets a page. -/
theorem allocuvmFrom_of_kalloc {oldsz newsz a f : ℕ} {m₁ m₂ : Mem} {ok : Bool} (ha : a < newsz)
    (halloc : Xv6.kalloc r.mem = (some f, m₁))
    (hmap : Xv6.mappages d a pgsize (v2p f) ⟨true, true, 0⟩ m₁ = some (ok, m₂)) :
    r.allocuvmFrom img d oldsz newsz a =
      if ok then allocuvmFrom img d oldsz newsz (a + pgsize) { r.fill f 0 with mem := m₂ }
      else
        (deallocuvm img d newsz oldsz { r.fill f 0 with mem := m₂ }).bind fun (_, r) =>
          (kfree img r f).map fun r => (0, r) := by
  have hkalloc : kalloc r = (some f, { r with mem := m₁ }) := by rw [kalloc, halloc]
  have hmappages : mappages d a pgsize (v2p f) ⟨true, true, 0⟩ (fill { r with mem := m₁ } f 0) =
      some (ok, { r.fill f 0 with mem := m₂ }) := by
    rw [mappages, fill_mem, hmap]
    rfl
  rw [allocuvmFrom, dif_pos ha, hkalloc]
  dsimp only
  rw [hmappages, Option.bind_some]

/-- The loop of `allocuvm`: what was mapped keeps its contents, and a new page reads as
zeroes. -/
theorem allocuvmFrom_keeps {oldsz newsz a sz : ℕ} (hnew : newsz < kernbase)
    (haligned : a % 4096 = 0) (hold : pgroundup oldsz ≤ a) (hle : oldsz ≤ a)
    (habove : ∀ b < kernbase, a ≤ b → ¬ Mapped r.mem.page d b) (hsafe : Safe img r d)
    (hcall : r.allocuvmFrom img d oldsz newsz a = some (sz, r')) :
    r.Keeps d r' ∧ (sz ≠ 0 → ∀ b < kernbase, ¬ Mapped r.mem.page d b →
      Mapped r'.mem.page d b → r'.userByte d b = some 0) := by
  induction hn : newsz - a using Nat.strong_induction_on generalizing a r with
  | _ n ih =>
    subst hn
    by_cases ha : a < newsz
    · cases halloc : Xv6.kalloc r.mem with
      | mk f m₁ =>
        cases f with
        | none =>
          obtain ⟨rfl, -⟩ := alloc_eq_none halloc
          have hkalloc : kalloc r = (none, r) := by rw [kalloc, halloc]
          rw [allocuvmFrom, dif_pos ha, hkalloc] at hcall
          obtain ⟨⟨sz₁, r₁⟩, hdealloc, hr₁⟩ := Option.map_eq_some_iff.mp hcall
          obtain ⟨rfl, rfl⟩ := Prod.mk.inj hr₁
          exact ⟨(deallocuvm_keeps hnew.le hsafe hdealloc).2, fun h => absurd rfl h⟩
        | some f =>
          obtain ⟨hf, hpage, hsound₁, hmap⟩ := mapNew ⟨true, true, 0⟩ hsafe haligned
            (by omega) (habove a (by omega) le_rfl) halloc
          have hcleared := keeps_cleared hsafe halloc
          have hsafe₁ : Safe img { r.fill f 0 with mem := m₁ } d :=
            hsound₁.mono (add_le_add_right (Multiset.le_cons_self _ _) _)
          obtain ⟨hmap, -⟩ | ⟨m₂, hmap, hgrown⟩ := hmap
          · -- the page is given back after the other new pages
            rw [allocuvmFrom_of_kalloc ha halloc hmap, if_neg Bool.false_ne_true] at hcall
            obtain ⟨⟨sz₁, r₁⟩, hdealloc, hrest⟩ := Option.bind_eq_some_iff.mp hcall
            obtain ⟨r₂, hfree, hr₂⟩ := Option.map_eq_some_iff.mp hrest
            obtain ⟨rfl, rfl⟩ := Prod.mk.inj hr₂
            refine ⟨?_, fun h => absurd rfl h⟩
            have hgiven := keeps_given hf hnew.le (hle.trans_lt ha).le hsound₁ hdealloc hfree
            refine hcleared.trans hgiven fun b _ hmapped _ => ?_
            simpa only [hpage] using hmapped
          · rw [allocuvmFrom_of_kalloc ha halloc hmap, if_pos rfl] at hcall
            have hmapped₂ : ∀ b < kernbase, Mapped m₂.page d b ↔
                Mapped r.mem.page d b ∨ b / 4096 = a / 4096 := fun b hb =>
              hgrown.mapped_iff b (by unfold kernbase at hb; omega)
            have hsafe₂ : Safe img { r.fill f 0 with mem := m₂ } d := by
              unfold Safe
              rwa [hgrown.moves.total]
            have habove₂ : ∀ b < kernbase, a + pgsize ≤ b → ¬ Mapped m₂.page d b := by
              intro b hb hle' hmapped
              unfold pgsize at hle'
              obtain h | h := (hmapped₂ b hb).mp hmapped
              · exact habove b hb (by omega) h
              · omega
            have hunmapped₁ : ¬ Mapped m₁.page d a := by
              rw [hpage]
              exact habove a (by omega) le_rfl
            obtain ⟨hkept, hentry⟩ := mappages_pte hsafe₁ haligned (by omega) hunmapped₁ hmap
            have hround : r.Keeps d { r.fill f 0 with mem := m₂ } := by
              have hentered : Keeps { r.fill f 0 with mem := m₁ } d
                  { r.fill f 0 with mem := m₂ } :=
                keeps_of_pte rfl fun b hb hmapped _ =>
                  hkept b (by unfold kernbase at hb; omega) hmapped
              refine hcleared.trans hentered fun b _ hmapped _ => ?_
              simpa only [hpage] using hmapped
            obtain ⟨hrest, hzero⟩ := ih _ (by unfold pgsize; omega) (by unfold pgsize; omega)
              (by unfold pgsize; omega) (by unfold pgsize; omega) habove₂ hsafe₂ hcall rfl
            refine ⟨hround.trans hrest fun b hb hmapped _ => (hmapped₂ b hb).mpr (.inl hmapped),
              fun hsz b hb hmapped hmapped' => ?_⟩
            by_cases hpageb : b / 4096 = a / 4096
            · have hmappedb := (hmapped₂ b hb).mpr (.inr hpageb)
              rw [hrest.byte b hb hmappedb hmapped']
              unfold kernbase at hb hnew
              have hsame := pte_congr_page (w := m₂.page) (d := d) (by omega) (by omega) hpageb
              exact userByte_zero hf (hsame.trans hentry)
            · refine hzero hsz b hb (fun h => ?_) hmapped'
              exact ((hmapped₂ b hb).mp h).elim hmapped hpageb
    · rw [allocuvmFrom, dif_neg ha] at hcall
      obtain ⟨rfl, rfl⟩ := Prod.mk.inj (Option.some.inj hcall)
      exact ⟨.refl r d, fun _ b _ hmapped hmapped' => absurd hmapped' hmapped⟩

/-! ## `growproc` -/

/-- `growproc` on a process of size `sz`: the return value, the size and the memory after it. -/
def growproc (img : KernelImage) (pgdir sz : ℕ) (n : ℤ) (r : Ram) : Option (ℤ × ℕ × Ram) :=
  let commit := fun (newsz : ℕ) (r : Ram) =>
    if newsz = 0 then ((-1 : ℤ), sz, r) else ((0 : ℤ), newsz, r)
  if n > 0 then
    (allocuvm img pgdir sz (wrapUint (sz + n)) r).map fun (newsz, r) => commit newsz r
  else if n < 0 then
    (deallocuvm img pgdir sz (wrapUint (sz + n)) r).map fun (newsz, r) => commit newsz r
  else some (0, sz, r)

/-- The size is the sum, the pages below it are mapped and no others, those that were mapped
keep their contents and the new ones read as zeroes. -/
def Grown (d sz : ℕ) (n : ℤ) (r : Ram) (sz' : ℕ) (r' : Ram) : Prop :=
  (sz' : ℤ) = sz + n ∧ ∀ b < kernbase, r'.userByte d b =
    if b < pgroundup sz' then (if b < pgroundup sz then r.userByte d b else some 0) else none

/-- The user half is as before. -/
def Untouched (d : ℕ) (r r' : Ram) : Prop :=
  ∀ b < kernbase, (Mapped r'.mem.page d b ↔ Mapped r.mem.page d b) ∧
    (Mapped r.mem.page d b → Xv6.pte r'.mem.page d b = Xv6.pte r.mem.page d b) ∧
      r'.userByte d b = r.userByte d b

/-- What is said of a call of `growproc`: it does exactly what it is asked for, or fails and has
no effect. -/
def Exact (d sz : ℕ) (n : ℤ) (r : Ram) : Option (ℤ × ℕ × Ram) → Prop
  | none => False
  | some (ret, sz', r') =>
      ret = 0 ∧ Grown d sz n r sz' r' ∨ ret = -1 ∧ sz' = sz ∧ Untouched d r r'

theorem Untouched.refl (d : ℕ) (r : Ram) : Untouched d r r :=
  fun _ _ => ⟨Iff.rfl, fun _ => rfl, rfl⟩

/-- A computation that keeps what is mapped and maps the same addresses has no effect. -/
theorem Keeps.untouched (hkeeps : r.Keeps d r')
    (hmapped : ∀ b < kernbase, Mapped r'.mem.page d b ↔ Mapped r.mem.page d b) :
    Untouched d r r' := by
  refine fun b hb => ⟨hmapped b hb, fun h => hkeeps.pte b hb h ((hmapped b hb).mpr h), ?_⟩
  by_cases h : Mapped r.mem.page d b
  · exact hkeeps.byte b hb h ((hmapped b hb).mpr h)
  · rw [userByte_of_not_mapped h, userByte_of_not_mapped fun h' => h ((hmapped b hb).mp h')]

/-- A computation that keeps what is mapped, clears new pages and maps the pages below the new
size. -/
theorem Keeps.grown {sz sz' : ℕ} {n : ℤ} (hkeeps : r.Keeps d r')
    (hspans : Spans r.mem.page d sz) (hspans' : Spans r'.mem.page d sz')
    (hsize : (sz' : ℤ) = sz + n) (hzero : ∀ b < kernbase, ¬ Mapped r.mem.page d b →
      Mapped r'.mem.page d b → r'.userByte d b = some 0) : Grown d sz n r sz' r' := by
  refine ⟨hsize, fun b hb => ?_⟩
  rw [← if_congr (hspans' b hb) rfl rfl, ← if_congr (hspans b hb) rfl rfl]
  split_ifs with hnew hold
  · exact hkeeps.byte b hb hold hnew
  · exact hzero b hb hold hnew
  · exact userByte_of_not_mapped hnew

theorem allocuvm_mem (r : Ram) (d oldsz newsz : ℕ) :
    (r.allocuvm img d oldsz newsz).map (Prod.map id mem) =
      Xv6.allocuvm img d oldsz newsz r.mem := by
  rw [allocuvm, Xv6.allocuvm]
  split_ifs
  · rfl
  · rfl
  · exact allocuvmFrom_mem r d oldsz newsz _

/-- `allocuvm`: what was mapped keeps its contents, and a new page reads as zeroes. -/
theorem allocuvm_keeps {oldsz newsz sz : ℕ} (hspans : Spans r.mem.page d oldsz)
    (hold : oldsz < kernbase) (hsafe : Safe img r d)
    (hcall : r.allocuvm img d oldsz newsz = some (sz, r')) :
    r.Keeps d r' ∧ (sz ≠ 0 → ∀ b < kernbase, ¬ Mapped r.mem.page d b →
      Mapped r'.mem.page d b → r'.userByte d b = some 0) := by
  unfold allocuvm at hcall
  split_ifs at hcall with hnew hlt
  · obtain ⟨rfl, rfl⟩ := Prod.mk.inj (Option.some.inj hcall)
    exact ⟨.refl r d, fun h => absurd rfl h⟩
  · obtain ⟨rfl, rfl⟩ := Prod.mk.inj (Option.some.inj hcall)
    exact ⟨.refl r d, fun _ b _ hmapped hmapped' => absurd hmapped' hmapped⟩
  · unfold kernbase at hold
    refine allocuvmFrom_keeps (by omega) (by unfold pgroundup pgsize; omega) le_rfl
      (by unfold pgroundup pgsize; omega) (fun b hb hle hmapped => ?_) hsafe hcall
    exact absurd ((hspans b hb).mp hmapped) (by omega)

section Growproc

variable {sz : ℕ} {n : ℤ}

/-- `growproc` with a positive argument. -/
theorem growproc_pos (hspans : Spans r.mem.page d sz) (hsz : sz < kernbase)
    (hsafe : Safe img r d) (hpos : 0 < n) (hint : n < 2 ^ 31) :
    Exact d sz n r (growproc img d sz n r) := by
  have hnewsz : wrapUint (sz + n) = sz + n.toNat := by
    unfold wrapUint
    unfold kernbase at hsz
    omega
  have habove : ∀ b < kernbase, pgroundup sz ≤ b → ¬ Mapped r.mem.page d b := fun b hb hle h =>
    absurd ((hspans b hb).mp h) (by omega)
  rw [growproc, if_pos hpos, hnewsz]
  obtain ⟨m', halloc, hlt, hremaps⟩ | ⟨m', halloc, hremaps⟩ :=
    allocuvm_spec (sz + n.toNat) hsz.le habove hsafe
  · rw [← allocuvm_mem] at halloc
    obtain ⟨⟨sz', r'⟩, hcall, hr'⟩ := Option.map_eq_some_iff.mp halloc
    obtain ⟨hsz', rfl⟩ := Prod.mk.inj hr'
    obtain rfl : sz' = sz + n.toNat := hsz'.trans (max_eq_right (by omega))
    obtain ⟨hkeeps, hzero⟩ := allocuvm_keeps hspans hsz hsafe hcall
    rw [hcall, Option.map_some]
    dsimp only
    rw [if_neg (by omega)]
    refine .inl ⟨rfl, hkeeps.grown hspans (fun b hb => ?_) (by push_cast; omega)
      (hzero (by omega))⟩
    rw [hremaps.mapped_iff b (by unfold kernbase at hb; omega), hspans b hb,
      ProcessMemory.lt_pgroundup_max_iff hsz hlt, max_eq_right (by omega)]
  · rw [← allocuvm_mem] at halloc
    obtain ⟨⟨sz', r'⟩, hcall, hr'⟩ := Option.map_eq_some_iff.mp halloc
    obtain ⟨rfl, rfl⟩ := Prod.mk.inj hr'
    have hkeeps := (allocuvm_keeps hspans hsz hsafe hcall).1
    rw [hcall, Option.map_some]
    refine .inr ⟨rfl, rfl, hkeeps.untouched fun b hb => ?_⟩
    exact hremaps.mapped_iff b (by unfold kernbase at hb; omega)

/-- `growproc` that shrinks the process to a smaller size. -/
theorem growproc_shrink (hsz : sz < kernbase) (hsafe : Safe img r d) (hneg : n < 0)
    (hle : 0 ≤ sz + n) :
    ∃ r', growproc img d sz n r =
        some (if sz + n = 0 then (-1, sz, r') else (0, (sz + n).toNat, r')) ∧
      Shrunk r.mem d (pgroundup (sz + n).toNat) sz r'.mem ∧ r.Keeps d r' := by
  have hnewsz : wrapUint (sz + n) = (sz + n).toNat := by
    unfold wrapUint
    unfold kernbase at hsz
    omega
  obtain ⟨m', hdealloc, hshrunk⟩ := deallocuvm_spec sz (sz + n).toNat hsz.le (by omega) hsafe
  rw [← deallocuvm_mem] at hdealloc
  obtain ⟨⟨sz', r'⟩, hcall, hr'⟩ := Option.map_eq_some_iff.mp hdealloc
  obtain ⟨hsz', rfl⟩ := Prod.mk.inj hr'
  obtain rfl : sz' = (sz + n).toNat := hsz'
  refine ⟨r', ?_, hshrunk, (deallocuvm_keeps hsz.le hsafe hcall).2⟩
  rw [growproc, if_neg (by omega), if_pos hneg, hnewsz, hcall, Option.map_some]
  dsimp only
  by_cases hzero : sz + n = 0
  · rw [if_pos hzero, if_pos (by omega)]
  · rw [if_neg hzero, if_neg (by omega)]

/-- `growproc` with an argument below the negative size does nothing, and fails only if the size
is 0. -/
theorem growproc_wrap (hsz : sz < kernbase) (hint : -2 ^ 31 ≤ n) (hneg : sz + n < 0) :
    growproc img d sz n r = some (if sz = 0 then (-1, sz, r) else (0, sz, r)) := by
  have hnewsz : wrapUint (sz + n) ≥ sz := by
    unfold wrapUint
    unfold kernbase at hsz
    omega
  rw [growproc, if_neg (by omega), if_pos (by omega), deallocuvm, if_pos hnewsz, Option.map_some]

/-- **When `growproc` is exact.** For every address space whose pages below `sz` are mapped,
every `int` and every free list, `growproc(n)` either returns 0 and has changed the size by `n`,
or returns -1 and has no effect, if and only if `n` is not negative, or the new size is positive,
or the size is 0. -/
theorem growproc_exact_iff (hspans : Spans r.mem.page d sz) (hsz : sz < kernbase)
    (hsafe : Safe img r d) (hint : -2 ^ 31 ≤ n ∧ n < 2 ^ 31) :
    Exact d sz n r (growproc img d sz n r) ↔ 0 ≤ n ∨ 0 < sz + n ∨ sz = 0 := by
  rcases lt_trichotomy n 0 with hneg | rfl | hpos
  · rcases lt_trichotomy (sz + n) 0 with hwrap | hzero | hnew
    · -- the sum wraps around to a large size
      rw [growproc_wrap hsz hint.1 hwrap]
      by_cases hempty : sz = 0
      · rw [if_pos hempty]
        exact iff_of_true (.inr ⟨rfl, rfl, .refl d r⟩) (.inr (.inr hempty))
      · rw [if_neg hempty]
        refine iff_of_false ?_ (by omega)
        rintro (⟨-, hsize, -⟩ | ⟨hret, -⟩)
        · omega
        · cases hret
    · -- the pages are gone, and the size is not
      obtain ⟨r', hcall, hshrunk, -⟩ := growproc_shrink hsz hsafe hneg hzero.ge
      rw [hcall, if_pos hzero]
      refine iff_of_false ?_ (by omega)
      rintro (⟨hret, -⟩ | ⟨-, -, huntouched⟩)
      · cases hret
      · have hpos : 0 < sz := by omega
        have hfirst : 0 < pgroundup sz :=
          (ProcessMemory.lt_pgroundup_self_iff hsz).mp (by rwa [Nat.zero_div, Nat.zero_mul])
        have hmapped : Mapped r.mem.page d 0 := (hspans 0 (by decide)).mpr hfirst
        have hgone := (hshrunk.mapped_iff 0 (by norm_num)).mp
          ((huntouched 0 (by decide)).1.mpr hmapped)
        apply hgone.2
        rw [hzero]
        have hstart : pgroundup (0 : ℤ).toNat = 0 := by decide
        rw [hstart]
        omega
    · obtain ⟨r', hcall, hshrunk, hkeeps⟩ := growproc_shrink hsz hsafe hneg hnew.le
      rw [hcall, if_neg hnew.ne']
      have hmapped : ∀ b < kernbase, Mapped r'.mem.page d b ↔
          Mapped r.mem.page d b ∧ ¬ (pgroundup (sz + n).toNat ≤ b ∧ b / 4096 * 4096 < sz) :=
        fun b hb => hshrunk.mapped_iff b (by unfold kernbase at hb; omega)
      refine iff_of_true (.inl ⟨rfl, hkeeps.grown hspans (fun b hb => ?_) (by omega) ?_⟩)
        (.inr (.inl hnew))
      · rw [hmapped b hb, hspans b hb]
        exact ProcessMemory.lt_pgroundup_iff hsz (by omega)
      · exact fun b hb hold hnew' => absurd ((hmapped b hb).mp hnew').1 hold
  · rw [growproc, if_neg (lt_irrefl _), if_neg (lt_irrefl _)]
    refine iff_of_true (.inl ⟨rfl, (Keeps.refl r d).grown hspans hspans (by simp) ?_⟩) (.inl le_rfl)
    exact fun b _ hold hnew => absurd hnew hold
  · exact iff_of_true (growproc_pos hspans hsz hsafe hpos hint.2) (.inl hpos.le)

end Growproc

/-- The first process after boot, with its memory. -/
theorem exists_booted : ∃ (r : Ram) (d : ℕ), Spans r.mem.page d 4096 ∧
    Safe ProcessMemory.smallKernel r d ∧ 55804 ≤ r.mem.free.length := by
  obtain ⟨s₀, hboot⟩ := ProcessMemory.boot_eq_some (fun _ _ => .zero) 1 2
    (show pgroundup ProcessMemory.smallKernel.kend + 513 * 4096 < p2v (4 * 1024 * 1024) by decide)
    (show 44 < pgsize by decide)
  obtain ⟨np, s, hdispatch, hrunning, hsz, hfree, -⟩ := ProcessMemory.boot_dispatch hboot
  have hrun : GuardedRun.Run (ProcessMemory.step ProcessMemory.smallKernel)
      (fun _ => ProcessMemory.KeepsMemory ProcessMemory.smallKernel) s₀ [.dispatch np] s :=
    .step .start ⟨trivial, fun _ _ h => by cases h⟩ hdispatch
  obtain ⟨hexact, howned⟩ := ProcessMemory.exact_run hboot hrun
  have hlive : (s.table.proc np).state ≠ .unused := by simp [hrunning]
  refine ⟨⟨s.mem, fun _ => 0⟩, (s.table.proc np).pgdir, fun b hb => ?_,
    howned.sound_dirPages hlive, hfree⟩
  rw [← hsz]
  exact hexact np hlive b hb

theorem growproc_exact_iff_booted : ∃ (r : Ram) (d : ℕ),
    Exact d 4096 (-4095) r (growproc ProcessMemory.smallKernel d 4096 (-4095) r) := by
  obtain ⟨r, d, hspans, hsafe, -⟩ := exists_booted
  exact ⟨r, d, (growproc_exact_iff hspans (by decide) hsafe (by decide)).mpr (by decide)⟩

/-- `sbrk(-8192)` in a process of one page returns 0 and leaves the size as it is. -/
theorem growproc_inexact : ¬ ∀ (img : KernelImage) (r : Ram) (d sz : ℕ) (n : ℤ),
    Spans r.mem.page d sz → sz < kernbase → Safe img r d → -2 ^ 31 ≤ n ∧ n < 2 ^ 31 →
      Exact d sz n r (growproc img d sz n r) := by
  intro h
  obtain ⟨r, d, hspans, hsafe, -⟩ := exists_booted
  have hexact := h _ r d 4096 (-8192) hspans (by decide) hsafe (by decide)
  rw [growproc_wrap (by decide) (by decide) (by decide)] at hexact
  obtain ⟨-, hsize, -⟩ | ⟨hret, -⟩ := hexact
  · cases hsize
  · cases hret

/-- The return value, the size and the page tables are those of `growproc` on the process
table. -/
theorem growproc_mem (s : ProcessMemory.State) (cur : Slot) (n : ℤ) (byte : ℕ → UInt8) :
    (ProcessMemory.growproc img s cur n).map
        (fun x => (x.1, (x.2.table.proc cur).sz, x.2.mem)) =
      (growproc img (s.table.proc cur).pgdir (s.table.proc cur).sz n ⟨s.mem, byte⟩).map
        fun x => (x.1, x.2.1, x.2.2.mem) := by
  unfold ProcessMemory.growproc growproc
  dsimp only
  split_ifs
  · rw [← allocuvm_mem ⟨s.mem, byte⟩]
    simp only [Option.map_map]
    congr 1
    funext x
    simp only [Function.comp_apply, Prod.map_fst, Prod.map_snd, id]
    split_ifs <;> simp
  · rw [← deallocuvm_mem ⟨s.mem, byte⟩]
    simp only [Option.map_map]
    congr 1
    funext x
    simp only [Function.comp_apply, Prod.map_fst, Prod.map_snd, id]
    split_ifs <;> simp
  · simp

end Ram

end Xv6
