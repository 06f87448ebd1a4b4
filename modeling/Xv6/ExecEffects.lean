import Xv6.ExecCall

/-!
# What `exec` writes to

Every step of `exec` moves pages between the free list and the new address space, and writes to
these pages only. The kernel half of the new address space has no user pages, so a `copyout`
cannot leave the address space.
-/

namespace Xv6

open PageStore

variable {img : KernelImage} {m m' : Mem} {w : ℕ → Fin 1024 → Pte} {d : ℕ}

/-! ## The kernel half has no user pages -/

/-- No page of the kernel half is a user page. -/
def KernelPrivate (w : ℕ → Fin 1024 → Pte) (d : ℕ) : Prop :=
  ∀ b < 2 ^ 32, kernbase ≤ b → ∀ e, pte w d b = some e → e.p → e.u = false

theorem KernelPrivate.userFrame_eq_none (hprivate : KernelPrivate w d) {b : ℕ} (hb : b < 2 ^ 32)
    (hlow : kernbase ≤ b) : userFrame w d b = none := by
  cases hframe : userFrame w d b with
  | none => rfl
  | some f =>
    obtain ⟨e, hpte, hp, hu, -⟩ := userFrame_eq_some.mp hframe
    rw [hprivate b hb hlow e hpte hp] at hu
    cases hu

/-- The kernel half keeps its entries, and nothing new is mapped there. -/
structure KernelKept (w : ℕ → Fin 1024 → Pte) (d : ℕ) (w' : ℕ → Fin 1024 → Pte) : Prop where
  /-- The addresses. -/
  mapped : ∀ b < 2 ^ 32, kernbase ≤ b → (Mapped w' d b ↔ Mapped w d b)
  /-- The entries. -/
  entry : ∀ b < 2 ^ 32, kernbase ≤ b → Mapped w d b → pte w' d b = pte w d b

theorem KernelPrivate.kept {w' : ℕ → Fin 1024 → Pte} (hprivate : KernelPrivate w d)
    (hkept : KernelKept w d w') : KernelPrivate w' d := by
  intro b hb hlow e hpte hp
  have hmapped := (hkept.mapped b hb hlow).mp (mapped_iff_pte.mpr ⟨e, hpte, hp⟩)
  rw [hkept.entry b hb hlow hmapped] at hpte
  exact hprivate b hb hlow e hpte hp

/-- One entry for an address that is not mapped, without the permission of the user. -/
theorem entered_private {a pa : ℕ} {perm : Perm} {m₁ : Mem}
    (hsound : Sound img (m.free + dirPages m.page d)) (hunmapped : ¬ Mapped m.page d a)
    (hperm : perm.u = false) (hprivate : KernelPrivate m.page d)
    (hwalk : walkpgdir m d a true = (some (pageTable m₁.page d (pdx a), ptx a), m₁))
    (hwalked : Walked m d a m₁) :
    ¬ (m₁.page (pageTable m₁.page d (pdx a)) (ptx a)).p ∧
      KernelPrivate
        (setEntry m₁ (pageTable m₁.page d (pdx a)) (ptx a) (.present pa perm)).page d := by
  have hsound₁ : Sound img (m₁.free + dirPages m₁.page d) := by rwa [hwalked.moves.total]
  have hnodup := (Multiset.nodup_add.mp hsound₁.nodup).2.1
  refine ⟨fun h => hunmapped ((hwalked.mapped_iff a).mp ⟨hwalked.present, h⟩), ?_⟩
  intro b hb hlow e hpte hp
  rw [setEntry_pte hnodup hwalked.present] at hpte
  split_ifs at hpte with hpage
  · obtain rfl := Option.some.inj hpte
    exact hperm
  · have hmapped := (hwalked.mapped_iff b).mp (mapped_iff_pte.mpr ⟨e, hpte, hp⟩)
    rw [walkpgdir_pte hsound hwalk hmapped.1] at hpte
    exact hprivate b hb hlow e hpte hp

/-- Kernel addresses are mapped without the permission of the user. -/
theorem mappagesFrom_private {n a pa : ℕ} {perm : Perm} {ok : Bool} (hlow : kernbase ≤ a)
    (hhigh : a + n * 4096 < 2 ^ 32) (haligned : a % 4096 = 0) (hkernel : KernelOnly m.page d a)
    (hsound : Sound img (m.free + dirPages m.page d)) (hperm : perm.u = false)
    (hprivate : KernelPrivate m.page d)
    (hcall : mappagesFrom d perm n a pa m = some (ok, m')) : KernelPrivate m'.page d := by
  induction n generalizing a pa m with
  | zero =>
    have hunmapped := hkernel.above a (by omega) le_rfl
    obtain ⟨hwalk, -⟩ | ⟨m₁, hwalk, hwalked⟩ := walkpgdir_true hsound a
    · rw [mappagesFrom, hwalk] at hcall
      obtain rfl := (Prod.mk.inj (Option.some.inj hcall)).2
      exact hprivate
    · obtain ⟨hold, hnew⟩ := @entered_private _ _ _ _ pa _ _ hsound hunmapped hperm hprivate
        hwalk hwalked
      rw [mappagesFrom, hwalk] at hcall
      dsimp only at hcall
      rw [if_neg hold] at hcall
      obtain rfl := (Prod.mk.inj (Option.some.inj hcall)).2
      exact hnew
  | succ n ih =>
    have hunmapped := hkernel.above a (by omega) le_rfl
    obtain ⟨hwalk, -⟩ | ⟨m₁, hwalk, hwalked⟩ := walkpgdir_true hsound a
    · rw [mappagesFrom, hwalk] at hcall
      obtain rfl := (Prod.mk.inj (Option.some.inj hcall)).2
      exact hprivate
    · obtain ⟨hold, hnew⟩ := @entered_private _ _ _ _ pa _ _ hsound hunmapped hperm hprivate
        hwalk hwalked
      -- what the entry does to the address space is known from the call for this page alone
      obtain ⟨hfail, -⟩ | ⟨m₂, hentered, heq⟩ := mappagesFrom_step pa perm hsound (by omega)
        hunmapped 0
      · rw [mappagesFrom, hwalk] at hfail
        dsimp only at hfail
        rw [if_neg hold] at hfail
        simp at hfail
      · rw [mappagesFrom, hwalk] at heq hcall
        dsimp only at heq hcall
        rw [if_neg hold] at heq hcall
        obtain rfl := (Prod.mk.inj (Option.some.inj heq)).2
        obtain ⟨hkernel₂, hmoves⟩ := hkernel.entered hentered hlow (by omega) haligned
        refine ih ?_ ?_ ?_ hkernel₂ ?_ hnew hcall
        · omega
        · omega
        · omega
        · rwa [hmoves.total]

theorem mappages_private {va size pa : ℕ} {perm : Perm} {ok : Bool} (hlow : kernbase ≤ va)
    (hhigh : va + size ≤ 2 ^ 32) (hsize : 0 < size) (haligned : va % 4096 = 0)
    (hend : size % 4096 = 0) (hkernel : KernelOnly m.page d va)
    (hsound : Sound img (m.free + dirPages m.page d)) (hperm : perm.u = false)
    (hprivate : KernelPrivate m.page d)
    (hcall : mappages d va size pa perm m = some (ok, m')) : KernelPrivate m'.page d := by
  have hstart : pgrounddown va = va := by unfold pgrounddown pgsize; omega
  have hcount : (pgrounddown (wrapUint ((va : ℤ) + size - 1)) - va) / pgsize =
      size / 4096 - 1 := by
    unfold pgrounddown wrapUint pgsize
    omega
  simp only [mappages, hstart, hcount] at hcall
  exact mappagesFrom_private hlow (by omega) haligned hkernel hsound hperm hprivate hcall

theorem setupkvmMap_private {ks : List Kmap} {top : ℕ} (hlow : kernbase ≤ top)
    (hascending : Ascending top ks) (hperm : ∀ k ∈ ks, k.perm.u = false)
    (hkernel : KernelOnly m.page d top) (hsound : Sound img (m.free + dirPages m.page d))
    (hprivate : KernelPrivate m.page d)
    (hcall : setupkvmMap img d ks m = some (some d, m')) : KernelPrivate m'.page d := by
  induction ks generalizing top m with
  | nil =>
    obtain rfl := (Prod.mk.inj (Option.some.inj hcall)).2
    exact hprivate
  | cons k ks ih =>
    obtain ⟨hvirt, hhigh, hsize, haligned, hend, hrest⟩ := hascending
    obtain ⟨ok, m₁, hmap, hmoves₁, hkernel₁, -⟩ := mappages_kernel k.physStart
      k.perm (by omega) hhigh hsize haligned hend (hkernel.mono hvirt) hsound
    have hprivate₁ := mappages_private (by omega) hhigh hsize haligned hend (hkernel.mono hvirt)
      hsound (hperm k (List.mem_cons_self ..)) hprivate hmap
    rw [setupkvmMap, hmap, Option.bind_some] at hcall
    dsimp only at hcall
    cases ok with
    | true =>
      exact ih (by omega) hrest (fun k hk => hperm k (List.mem_cons_of_mem _ hk)) hkernel₁
        (by rwa [hmoves₁.total]) hprivate₁ hcall
    | false =>
      rw [if_neg Bool.false_ne_true] at hcall
      obtain ⟨m₂, -, heq⟩ := Option.map_eq_some_iff.mp hcall
      simp at heq

/-- The kernel half that `setupkvm` builds is private. -/
theorem setupkvm_private (hsound : Sound img m.free)
    (hcall : setupkvm img m = some (some d, m')) : KernelPrivate m'.page d := by
  unfold setupkvm at hcall
  cases halloc : kalloc m with
  | mk f m₁ =>
    rw [halloc] at hcall
    cases f with
    | none => simp at hcall
    | some d' =>
      have hphystop : ¬ p2v phystop > devspace := by decide
      dsimp only at hcall
      rw [if_neg hphystop] at hcall
      have hsame : d' = d := by
        have hbyte := @Ram.setupkvmMap_mem img ⟨clearPage m₁ d', fun _ => 0⟩ d' (kmap img)
        dsimp only at hbyte
        rw [hcall, Option.map_eq_some_iff] at hbyte
        obtain ⟨⟨res, r'⟩, hmap, heq⟩ := hbyte
        obtain ⟨rfl, -⟩ := Prod.mk.inj heq
        obtain ⟨h, -⟩ | ⟨h, -⟩ := Ram.setupkvmMap_byte hmap
        · exact (Option.some.inj h).symm
        · cases h
      subst hsame
      have htake := Moves.alloc halloc 0
      have hclear := Moves.write (m := m₁) (Multiset.mem_cons_self d' 0) (fun _ => Pte.zero)
      have hmoves₁ : Moves m 0 (clearPage m₁ d') (d' ::ₘ 0) := htake.trans hclear
      have hdir : (clearPage m₁ d').page d' = fun _ => .zero := write_page_self _ _ _
      have hkernel : KernelOnly (clearPage m₁ d').page d' kernbase := by
        refine ⟨fun i _ => ?_, fun b _ _ hmapped => ?_⟩
        · simp [hdir, Pte.zero]
        · have hpresent := hmapped.1
          simp [hdir, Pte.zero] at hpresent
      have hpages : dirPages (clearPage m₁ d').page d' = d' ::ₘ 0 := by
        have hslots : ∀ i, slotPages (clearPage m₁ d').page d' i = 0 := fun i => by
          simp [slotPages, hdir, Pte.zero]
        rw [dirPages, gather_congr hslots, gather_zero]
      rw [← hpages] at hmoves₁
      have hprivate : KernelPrivate (clearPage m₁ d').page d' := by
        intro b _ _ e hpte _
        rw [pte, hdir] at hpte
        simp [Pte.zero] at hpte
      have hperm : ∀ k ∈ kmap img, k.perm.u = false := by
        intro k hk
        simp only [kmap, List.mem_cons, List.not_mem_nil, or_false] at hk
        obtain rfl | rfl | rfl | rfl := hk <;> rfl
      refine setupkvmMap_private le_rfl (ascending_kmap img) hperm hkernel ?_ hprivate hcall
      rw [hmoves₁.total, add_zero]
      exact hsound

namespace Ram

open ProcessMemory

variable {r r' r'' : Ram}

/-! ## Growing and shrinking -/

/-- What a step of `exec` does to the new address space. -/
structure Within (r : Ram) (d : ℕ) (r' : Ram) : Prop where
  /-- Pages move between the free list and the address space. -/
  moves : Moves r.mem (dirPages r.mem.page d) r'.mem (dirPages r'.mem.page d)
  /-- Only these pages are written. -/
  changes : Changes (r.mem.free + dirPages r.mem.page d) r r'
  /-- The kernel half stays. -/
  kernel : KernelKept r.mem.page d r'.mem.page

theorem Within.refl (r : Ram) (d : ℕ) : r.Within d r :=
  ⟨.refl _ _, .of_eq rfl, ⟨fun _ _ _ => Iff.rfl, fun _ _ _ _ => rfl⟩⟩

theorem Within.trans (hfirst : r.Within d r') (hsecond : r'.Within d r'') : r.Within d r'' := by
  have hchanges := hsecond.changes
  rw [hfirst.moves.total] at hchanges
  refine ⟨hfirst.moves.trans hsecond.moves, hfirst.changes.trans hchanges, fun b hb hlow => ?_,
    fun b hb hlow hmapped => ?_⟩
  · exact (hsecond.kernel.mapped b hb hlow).trans (hfirst.kernel.mapped b hb hlow)
  · have hmapped' := (hfirst.kernel.mapped b hb hlow).mpr hmapped
    rw [hsecond.kernel.entry b hb hlow hmapped', hfirst.kernel.entry b hb hlow hmapped]

theorem Within.safe (hwithin : r.Within d r') (hsafe : Safe img r d) : Safe img r' d := by
  unfold Safe
  rwa [hwithin.moves.total]

/-- The loop of `deallocuvm` leaves the entries of the kernel half alone. -/
theorem deallocuvmFrom_entry {oldsz a b : ℕ} (hold : oldsz ≤ kernbase) (haligned : a % 4096 = 0)
    (hsound : Sound img (m.free + dirPages m.page d)) (hb : b < 2 ^ 32) (hlow : kernbase ≤ b)
    (hcall : Xv6.deallocuvmFrom img d oldsz a m = some m') : pte m'.page d b = pte m.page d b := by
  induction hn : oldsz - a using Nat.strong_induction_on generalizing a m with
  | _ n ih =>
    subst hn
    rw [Xv6.deallocuvmFrom] at hcall
    by_cases ha : a < oldsz
    · have hnext : oldsz - (a + pgsize) < oldsz - a := by
        unfold pgsize
        omega
      have haligned' : (a + pgsize) % 4096 = 0 := by
        unfold pgsize
        omega
      rw [dif_pos ha, walkpgdir_false] at hcall
      by_cases hp : (m.page d (pdx a)).p
      · rw [if_pos hp] at hcall
        dsimp only at hcall
        by_cases hmapped : (m.page (pageTable m.page d (pdx a)) (ptx a)).p
        · have hakern : a < kernbase := by omega
          obtain ⟨m₁, hfree, haddr, hdrop⟩ := dropped hsound hakern ⟨hp, hmapped⟩
          rw [if_pos hmapped, if_neg haddr, hfree, Option.bind_some] at hcall
          have hne : b / 4096 ≠ a / 4096 := by
            unfold kernbase at hlow hakern
            omega
          rw [ih _ hnext haligned' (by rwa [hdrop.moves.total]) hcall rfl]
          exact dropped_pte hsound hakern hb ⟨hp, hmapped⟩ hfree hne
        · rw [if_neg hmapped] at hcall
          exact ih _ hnext haligned' hsound hcall rfl
      · rw [if_neg hp] at hcall
        have hskip : oldsz - (a / 2 ^ 22 + 1) * 2 ^ 22 < oldsz - a := by omega
        exact ih _ hskip (by omega) hsound hcall rfl
    · rw [dif_neg ha] at hcall
      rw [← Option.some.inj hcall]

/-- `deallocuvm`. -/
theorem deallocuvm_within {oldsz newsz sz : ℕ} (hold : oldsz ≤ kernbase) (hsafe : Safe img r d)
    (hcall : r.deallocuvm img d oldsz newsz = some (sz, r')) : r.Within d r' := by
  unfold deallocuvm at hcall
  split_ifs at hcall
  · obtain ⟨-, rfl⟩ := Prod.mk.inj (Option.some.inj hcall)
    exact .refl r d
  · obtain ⟨r₁, hloop, hr₁⟩ := Option.map_eq_some_iff.mp hcall
    obtain ⟨-, rfl⟩ := Prod.mk.inj hr₁
    have haligned : pgroundup newsz % 4096 = 0 := by
      unfold pgroundup pgsize
      omega
    obtain ⟨hshrunk, -⟩ := deallocuvmFrom_keeps hold haligned hsafe hloop
    have hmem := @deallocuvmFrom_mem img r d oldsz (pgroundup newsz)
    rw [hloop, Option.map_some] at hmem
    refine ⟨hshrunk.moves, ?_, fun b hb hlow => ?_, fun b hb hlow _ => ?_⟩
    · rw [← hshrunk.moves.total]
      exact (deallocuvmFrom_frees hloop).changes.mono (Multiset.le_add_right _ _)
    · rw [hshrunk.mapped_iff b hb]
      apply and_iff_left
      unfold kernbase at hold hlow
      omega
    · exact deallocuvmFrom_entry hold haligned hsafe hb hlow hmem.symm

/-- Filling a page of the free list or of the address space. -/
theorem within_fill {f : ℕ} (hf : f ∈ (r.mem.free + dirPages r.mem.page d : Multiset ℕ))
    (v : UInt8) : Changes (r.mem.free + dirPages r.mem.page d) r (r.fill f v) :=
  (fill_changes r f v).mono (Multiset.singleton_le.mpr hf)

/-- The loop of `allocuvm` writes to pages of the free list and of the address space, and leaves
the entries of the kernel half alone. -/
theorem allocuvmFrom_effects {oldsz newsz a sz : ℕ} (hnew : newsz < kernbase)
    (haligned : a % 4096 = 0) (hold : pgroundup oldsz ≤ a) (hle : oldsz ≤ a)
    (habove : ∀ b < kernbase, a ≤ b → ¬ Mapped r.mem.page d b) (hsafe : Safe img r d)
    (hcall : r.allocuvmFrom img d oldsz newsz a = some (sz, r')) :
    Changes (r.mem.free + dirPages r.mem.page d) r r' ∧
      ∀ b < 2 ^ 32, kernbase ≤ b → Mapped r.mem.page d b →
        pte r'.mem.page d b = pte r.mem.page d b := by
  induction hn : newsz - a using Nat.strong_induction_on generalizing a r with
  | _ n ih =>
    subst hn
    by_cases ha : a < newsz
    · cases halloc : Xv6.kalloc r.mem with
      | mk f m₁ =>
        cases f with
        | none =>
          obtain ⟨rfl, -⟩ := alloc_eq_none halloc
          have hkalloc : kalloc r = (none, r) := by rw [kalloc, halloc]
          rw [allocuvmFrom, dif_pos ha, hkalloc] at hcall
          obtain ⟨⟨sz₁, r₁⟩, hdealloc, hr₁⟩ := Option.map_eq_some_iff.mp hcall
          obtain ⟨rfl, rfl⟩ := Prod.mk.inj hr₁
          have hwithin := deallocuvm_within hnew.le hsafe hdealloc
          exact ⟨hwithin.changes, hwithin.kernel.entry⟩
        | some f =>
          obtain ⟨hf, hpage, hsound₁, hmap⟩ := mapNew ⟨true, true, 0⟩ hsafe haligned
            (by omega) (habove a (by omega) le_rfl) halloc
          have htotal := (Moves.alloc halloc (dirPages r.mem.page d)).total
          have hmem : f ∈ (r.mem.free + dirPages r.mem.page d : Multiset ℕ) := by
            simp [(alloc_eq_some halloc).1]
          have hfill := within_fill hmem 0
          have hsafe₁ : Safe img { r.fill f 0 with mem := m₁ } d :=
            hsound₁.mono (add_le_add_right (Multiset.le_cons_self _ _) _)
          obtain ⟨hmap, -⟩ | ⟨m₂, hmap, hgrown⟩ := hmap
          · -- the page is given back after the other new pages
            rw [allocuvmFrom_of_kalloc ha halloc hmap, if_neg Bool.false_ne_true] at hcall
            obtain ⟨⟨sz₁, r₁⟩, hdealloc, hrest⟩ := Option.bind_eq_some_iff.mp hcall
            obtain ⟨r₂, hfree, hr₂⟩ := Option.map_eq_some_iff.mp hrest
            obtain ⟨rfl, rfl⟩ := Prod.mk.inj hr₂
            have hwithin := deallocuvm_within hnew.le hsafe₁ hdealloc
            have hle' : (m₁.free + dirPages m₁.page d : Multiset ℕ) ≤
                r.mem.free + dirPages r.mem.page d := by
              rw [← htotal, hpage]
              exact add_le_add_right (Multiset.le_cons_self _ _) _
            have hchanges := hfill.trans (hwithin.changes.mono hle')
            have hfresh : f ∉ dirPages r₁.mem.page d := by
              have hnodup := hsound₁.nodup
              rw [← (hwithin.moves.cons f).total] at hnodup
              exact (Multiset.nodup_cons.mp (Multiset.nodup_add.mp hnodup).2.1).1
            rw [kfree, kfree_eq hf, Option.map_some] at hfree
            obtain rfl := Option.some.inj hfree
            refine ⟨?_, fun b hb hlow hmapped => ?_⟩
            · exact hchanges.trans ((fill_changes r₁ f 1).mono (Multiset.singleton_le.mpr hmem))
            · have hsame : ∀ g ∈ dirPages r₁.mem.page d,
                  (r₁.mem.release (fun _ => Pte.junk) f).page g = r₁.mem.page g := fun g hg =>
                write_page_of_ne fun heq => hfresh (heq ▸ hg)
              have hentry := hwithin.kernel.entry b hb hlow
              dsimp only at hentry
              rw [hpage] at hentry
              exact (pte_congr hsame b).trans (hentry hmapped)
          · rw [allocuvmFrom_of_kalloc ha halloc hmap, if_pos rfl] at hcall
            have hmapped₂ : ∀ b < 2 ^ 32, Mapped m₂.page d b ↔
                Mapped r.mem.page d b ∨ b / 4096 = a / 4096 := hgrown.mapped_iff
            have hsafe₂ : Safe img { r.fill f 0 with mem := m₂ } d := by
              unfold Safe
              rwa [hgrown.moves.total]
            have habove₂ : ∀ b < kernbase, a + pgsize ≤ b → ¬ Mapped m₂.page d b := by
              intro b hb hle' hmapped
              have hb' : b < 2 ^ 32 := by
                unfold kernbase at hb
                omega
              unfold pgsize at hle'
              obtain h | h := (hmapped₂ b hb').mp hmapped
              · exact habove b hb (by omega) h
              · omega
            have hunmapped₁ : ¬ Mapped m₁.page d a := by
              rw [hpage]
              exact habove a (by omega) le_rfl
            obtain ⟨hkept, -⟩ := mappages_pte hsafe₁ haligned (by omega) hunmapped₁ hmap
            rw [hpage] at hkept
            obtain ⟨hchanges, hentry⟩ := ih _ (by unfold pgsize; omega)
              (by unfold pgsize; omega) (by unfold pgsize; omega) (by unfold pgsize; omega)
              habove₂ hsafe₂ hcall rfl
            have hmoves := hgrown.moves.total
            dsimp only at hchanges hentry
            rw [hmoves] at hchanges
            refine ⟨Changes.trans hfill hchanges, fun b hb hlow hmapped => ?_⟩
            rw [hentry b hb hlow ((hmapped₂ b hb).mpr (.inl hmapped)), hkept b hb hmapped]
    · rw [allocuvmFrom, dif_neg ha] at hcall
      obtain ⟨rfl, rfl⟩ := Prod.mk.inj (Option.some.inj hcall)
      exact ⟨.of_eq rfl, fun _ _ _ _ => rfl⟩

/-- `allocuvm` returns, and grows the address space unless it returns 0. -/
theorem allocuvm_within {oldsz : ℕ} (newsz : ℕ) (hspans : Spans r.mem.page d oldsz)
    (hold : oldsz < kernbase) (hsafe : Safe img r d) :
    ∃ sz r', r.allocuvm img d oldsz newsz = some (sz, r') ∧ r.Within d r' ∧ r.Keeps d r' ∧
      (sz ≠ 0 → sz = max oldsz newsz ∧ newsz < kernbase ∧ Spans r'.mem.page d sz ∧
        ∀ b < kernbase, ¬ Mapped r.mem.page d b → Mapped r'.mem.page d b →
          r'.userByte d b = some 0) := by
  have habove : ∀ b < kernbase, pgroundup oldsz ≤ b → ¬ Mapped r.mem.page d b := fun b hb hle h =>
    absurd ((hspans b hb).mp h) (by omega)
  have hspec : ∃ sz m', Xv6.allocuvm img d oldsz newsz r.mem = some (sz, m') ∧
      ∀ b < 2 ^ 32, kernbase ≤ b → (Mapped m'.page d b ↔ Mapped r.mem.page d b) := by
    obtain ⟨m', halloc, hnew, hremaps⟩ | ⟨m', halloc, hremaps⟩ :=
      allocuvm_spec newsz hold.le habove hsafe
    · refine ⟨_, m', halloc, fun b hb hlow => ?_⟩
      rw [hremaps.mapped_iff b hb]
      apply or_iff_left
      unfold kernbase at hnew hlow hold
      omega
    · refine ⟨_, m', halloc, fun b hb hlow => ?_⟩
      rw [hremaps.mapped_iff b hb]
  obtain ⟨sz, m', halloc, hmapped⟩ := hspec
  rw [← allocuvm_mem, Option.map_eq_some_iff] at halloc
  obtain ⟨⟨sz', r'⟩, hcall, heq⟩ := halloc
  obtain ⟨rfl, rfl⟩ := Prod.mk.inj heq
  have halloc : Xv6.allocuvm img d oldsz newsz r.mem = some (sz', r'.mem) := by
    rw [← allocuvm_mem, hcall]
    rfl
  obtain ⟨hmoves, hgrown⟩ := allocuvm_spans hold.le hspans hsafe halloc
  obtain ⟨hkeeps, hzero⟩ := allocuvm_keeps hspans hold hsafe hcall
  have heffects : Changes (r.mem.free + dirPages r.mem.page d) r r' ∧
      ∀ b < 2 ^ 32, kernbase ≤ b → Mapped r.mem.page d b →
        pte r'.mem.page d b = pte r.mem.page d b := by
    have hcall' := hcall
    unfold allocuvm at hcall'
    split_ifs at hcall' with hnew hlt
    · obtain ⟨-, rfl⟩ := Prod.mk.inj (Option.some.inj hcall')
      exact ⟨.of_eq rfl, fun _ _ _ _ => rfl⟩
    · obtain ⟨-, rfl⟩ := Prod.mk.inj (Option.some.inj hcall')
      exact ⟨.of_eq rfl, fun _ _ _ _ => rfl⟩
    · have hround : oldsz ≤ pgroundup oldsz := by
        unfold kernbase at hold
        unfold pgroundup pgsize
        omega
      have haligned : pgroundup oldsz % 4096 = 0 := by
        unfold pgroundup pgsize
        omega
      exact allocuvmFrom_effects (by omega) haligned le_rfl hround habove hsafe hcall'
  refine ⟨sz', r', hcall, ⟨hmoves, heffects.1, hmapped, heffects.2⟩, hkeeps, fun hne => ?_⟩
  obtain ⟨hmax, hnew, hspans'⟩ := hgrown hne
  exact ⟨hmax, hnew, hspans', hzero hne⟩

/-! ## Writing to a page of the address space -/

/-- A store that does not leave its page. -/
theorem store_changes {f off : ℕ} {data : List UInt8} (hfits : off + data.length ≤ pgsize) :
    Changes {f} r (r.store (f + off) data) := by
  intro a
  unfold store
  dsimp only
  split_ifs with hle
  · by_cases hlt : a - (f + off) < data.length
    · exact .inr ⟨f, Multiset.mem_singleton_self f, by omega, by omega⟩
    · rw [List.getElem?_eq_none (by omega)]
      exact .inl rfl
  · exact .inl rfl

/-- A store to the beginning of a page. -/
theorem store_page_changes (r : Ram) (f : ℕ) {data : List UInt8} (hlen : data.length ≤ pgsize) :
    Changes {f} r (r.store f data) := by
  have h := @store_changes r f 0 data (by omega)
  rwa [Nat.add_zero] at h

/-- The bytes of a page after a store to its beginning. -/
theorem store_byte (r : Ram) (f k : ℕ) (data : List UInt8) :
    (r.store f data).byte (f + k) = (data[k]?).getD (r.byte (f + k)) := by
  unfold store
  dsimp only
  rw [if_pos (Nat.le_add_right f k), Nat.add_sub_cancel_left]

/-- Bytes that change in the page of `a` are not those of another page. -/
theorem Changes.userByte_of_ne {a b : ℕ} (hchanges : Changes {userPage r.mem.page d a} r r')
    (hsafe : Safe img r d) (hmem : r'.mem = r.mem) (ha : a < kernbase)
    (hmapped : Mapped r.mem.page d a) (hb : b < kernbase) (hpage : b / 4096 ≠ a / 4096) :
    r'.userByte d b = r.userByte d b := by
  have hnodup := (Multiset.nodup_add.mp hsafe.nodup).2.1
  by_cases hmappedb : Mapped r.mem.page d b
  · have hmappedb' : Mapped r'.mem.page d b := by rwa [hmem]
    rw [userByte_of_mapped hmappedb', userByte_of_mapped hmappedb, hmem]
    apply congrArg some
    have hne : userPage r.mem.page d b ≠ userPage r.mem.page d a := fun heq =>
      hpage (userPage_inj hnodup hb ha hmappedb hmapped heq)
    have hsound : Sound img ({userPage r.mem.page d a} + {userPage r.mem.page d b}) := by
      refine ⟨?_, fun f hf => ?_⟩
      · rw [Multiset.singleton_add, Multiset.nodup_cons]
        exact ⟨fun h => hne (Multiset.mem_singleton.mp h).symm, Multiset.nodup_singleton _⟩
      · obtain hf | hf := Multiset.mem_add.mp hf
        · rw [Multiset.mem_singleton.mp hf]
          exact hsafe.allocatable _ (Multiset.mem_add.mpr (.inr (userPage_mem ha hmapped)))
        · rw [Multiset.mem_singleton.mp hf]
          exact hsafe.allocatable _ (Multiset.mem_add.mpr (.inr (userPage_mem hb hmappedb)))
    exact hchanges.page_byte hsound (Multiset.mem_singleton_self _)
      (Nat.mod_lt _ (by unfold pgsize; omega))
  · rw [userByte_of_not_mapped hmappedb, userByte_of_not_mapped (by rwa [hmem])]

/-- What a store to the page of `a` does to the bytes of the address space. -/
theorem store_userByte {a b : ℕ} {data : List UInt8} (hsafe : Safe img r d)
    (haligned : a % 4096 = 0) (ha : a < kernbase) (hmapped : Mapped r.mem.page d a)
    (hlen : data.length ≤ pgsize) (hb : b < kernbase) :
    (r.store (userPage r.mem.page d a) data).userByte d b =
      if a ≤ b ∧ b < a + data.length then data[b - a]? else r.userByte d b := by
  have hnodup := (Multiset.nodup_add.mp hsafe.nodup).2.1
  have hb' : b < 2 ^ 32 := by
    unfold kernbase at hb
    omega
  have ha' : a < 2 ^ 32 := by
    unfold kernbase at ha
    omega
  have hlen' := hlen
  unfold pgsize at hlen'
  by_cases hmappedb : Mapped r.mem.page d b
  · have hmappedb' : Mapped (r.store (userPage r.mem.page d a) data).mem.page d b := by
      rwa [store_mem]
    rw [userByte_of_mapped hmappedb', userByte_of_mapped hmappedb, store_mem]
    by_cases hpage : b / 4096 = a / 4096
    · have hle : a ≤ b := by omega
      have hindex : b % pgsize = b - a := by
        unfold pgsize
        omega
      have hsame : userPage r.mem.page d b = userPage r.mem.page d a := by
        obtain ⟨hpdx, hptx⟩ := (pdx_ptx_eq_iff ha' hb').mpr hpage
        rw [userPage, userPage, hpdx, hptx]
      rw [hsame, store_byte, hindex]
      clear hsame
      by_cases hlt : b < a + data.length
      · rw [if_pos ⟨hle, hlt⟩, List.getElem?_eq_getElem (by omega), Option.getD_some]
      · rw [if_neg fun h => hlt h.2, List.getElem?_eq_none (by omega), Option.getD_none]
    · have hout : ¬ (a ≤ b ∧ b < a + data.length) := by omega
      rw [if_neg hout]
      have hother := (store_page_changes r _ hlen).userByte_of_ne hsafe (store_mem _ _ _) ha hmapped
        hb hpage
      rwa [userByte_of_mapped hmappedb', userByte_of_mapped hmappedb, store_mem] at hother
  · have hmappedb' : ¬ Mapped (r.store (userPage r.mem.page d a) data).mem.page d b := by
      rwa [store_mem]
    rw [userByte_of_not_mapped hmappedb, userByte_of_not_mapped hmappedb', if_neg]
    rintro ⟨hle, hlt⟩
    apply hmappedb
    rw [mapped_iff_pte] at hmapped ⊢
    rwa [pte_congr_page ha' hb' (by omega)]

/-- A step that writes bytes to pages of the address space. -/
theorem Within.of_changes (hmem : r'.mem = r.mem)
    (hchanges : Changes (dirPages r.mem.page d) r r') : r.Within d r' := by
  refine ⟨?_, hchanges.mono (Multiset.le_add_left _ _), ?_⟩
  · rw [hmem]
    exact .refl _ _
  · rw [hmem]
    exact ⟨fun _ _ _ => Iff.rfl, fun _ _ _ _ => rfl⟩

/-- The byte of a segment that `loaduvm` reads for the `k`-th address. -/
def loaded (readi : ℕ → ℕ → List UInt8) (offset sz k : ℕ) : Option UInt8 :=
  (readi ((offset + k / 4096 * 4096) % 2 ^ 32) ((sz - k / 4096 * 4096) ⊓ 4096))[k % 4096]?

/-- The loop of `loaduvm`, when the pages are there. -/
theorem loaduvmFrom_ram {addr offset sz i : ℕ} {readi : ℕ → ℕ → List UInt8}
    (hlen : ∀ off n, (readi off n).length ≤ n) (hsafe : Safe img r d) (haddr : addr % 4096 = 0)
    (haligned : i % 4096 = 0) (hend : addr + sz ≤ kernbase)
    (hmapped : ∀ b, addr ≤ b → b < addr + sz → Mapped r.mem.page d b) :
    ∃ ok r', loaduvmFrom d addr readi offset sz i r = some (ok, r') ∧ r'.mem = r.mem ∧
      Changes (dirPages r.mem.page d) r r' ∧
      (ok = true → ∀ b < kernbase, r'.userByte d b =
        if addr + i ≤ b ∧ b < addr + sz then loaded readi offset sz (b - addr)
        else r.userByte d b) := by
  induction hn : sz - i using Nat.strong_induction_on generalizing i r with
  | _ n ih =>
    subst hn
    rw [loaduvmFrom]
    by_cases hi : i < sz
    · have hpage := hmapped (addr + i) (by omega) (by omega)
      have hcount : (if sz - i < pgsize then sz - i else pgsize) = (sz - i) ⊓ 4096 := by
        unfold pgsize
        split_ifs <;> omega
      have hakern : addr + i < kernbase := by omega
      have hstart : (addr + i) % 4096 = 0 := by omega
      have hread : ∀ b, addr + i ≤ b → b < addr + i + 4096 → b < addr + sz →
          loaded readi offset sz (b - addr) =
            (readi ((offset + i) % 2 ^ 32) ((sz - i) ⊓ 4096))[b - (addr + i)]? := by
        intro b hle hlt hltsz
        have hdiv : (b - addr) / 4096 * 4096 = i := by omega
        have hmod : (b - addr) % 4096 = b - (addr + i) := by omega
        rw [loaded, hdiv, hmod]
      have hshort := hlen ((offset + i) % 2 ^ 32) ((sz - i) ⊓ 4096)
      rw [dif_pos hi, walkpgdir_false, if_pos hpage.1]
      dsimp only
      rw [hcount]
      generalize readi ((offset + i) % 2 ^ 32) ((sz - i) ⊓ 4096) = data at hshort hread ⊢
      have hfits : data.length ≤ pgsize := by
        unfold pgsize
        omega
      have hmem := userPage_mem hakern hpage
      have hstore := fun b hb => store_userByte (b := b) hsafe hstart hakern hpage hfits hb
      have hchanges := (store_page_changes r (userPage r.mem.page d (addr + i)) hfits).mono
        (Multiset.singleton_le.mpr hmem)
      unfold userPage at hstore hchanges
      have hnext : sz - (i + pgsize) < sz - i := by
        unfold pgsize
        omega
      have haligned' : (i + pgsize) % 4096 = 0 := by
        unfold pgsize
        omega
      generalize hr₁ : r.store _ data = r₁ at hstore hchanges ⊢
      have hmem₁ : r₁.mem = r.mem := by rw [← hr₁, store_mem]
      have hsafe₁ : Safe img r₁ d := by
        unfold Safe
        rwa [hmem₁]
      clear hr₁ hmem
      by_cases hall : data.length ≠ (sz - i) ⊓ 4096
      · rw [if_pos hall]
        exact ⟨false, r₁, rfl, hmem₁, hchanges, fun h => by cases h⟩
      · rw [if_neg hall]
        push Not at hall
        obtain ⟨ok, r', hloop, hmem', hchanges', hbytes⟩ := ih _ hnext hsafe₁ haligned'
          (by rwa [hmem₁]) rfl
        rw [hmem₁] at hmem' hchanges'
        refine ⟨ok, r', hloop, hmem', hchanges.trans hchanges', fun hok b hb => ?_⟩
        rw [hbytes hok b hb, hstore b hb]
        unfold pgsize
        by_cases hrest : addr + (i + 4096) ≤ b ∧ b < addr + sz
        · rw [if_pos hrest, if_pos ⟨by omega, hrest.2⟩]
        · rw [if_neg hrest]
          by_cases hhere : addr + i ≤ b ∧ b < addr + sz
          · have hin : addr + i ≤ b ∧ b < addr + i + data.length := by omega
            rw [if_pos hhere, if_pos hin, hread b hhere.1 (by omega) hhere.2]
          · have hout : ¬ (addr + i ≤ b ∧ b < addr + i + data.length) := by omega
            rw [if_neg hhere, if_neg hout]
    · rw [dif_neg hi]
      refine ⟨true, r, rfl, rfl, .of_eq rfl, fun _ b _ => ?_⟩
      have hout : ¬ (addr + i ≤ b ∧ b < addr + sz) := by omega
      rw [if_neg hout]

/-! ## The user stack -/

/-- The frame of a user page is the page that is mapped. -/
theorem userPage_of_userFrame {w : ℕ → Fin 1024 → Pte} {va f : ℕ}
    (hframe : userFrame w d va = some f) : Mapped w d va ∧ userPage w d va = f := by
  obtain ⟨e, hpte, hp, -, hf, -⟩ := userFrame_eq_some.mp hframe
  have hmapped : Mapped w d va := mapped_iff_pte.mpr ⟨e, hpte, hp⟩
  rw [Xv6.pte, if_pos hmapped.1] at hpte
  obtain rfl := Option.some.inj hpte
  exact ⟨hmapped, hf⟩

/-- `copyout` writes to pages of the address space only, since the kernel half is private. -/
theorem copyoutWith_ram {va : ℕ} {p : List UInt8} (hprivate : KernelPrivate r.mem.page d)
    (hva : va < 2 ^ 32) :
    ∃ ok r', r.copyoutWith true d va p = some (ok, r') ∧ r'.mem = r.mem ∧
      Changes (dirPages r.mem.page d) r r' := by
  induction hn : p.length using Nat.strong_induction_on generalizing r va p with
  | _ n ih =>
    subst hn
    rw [copyoutWith]
    by_cases hlen : 0 < p.length
    · rw [dif_pos hlen, uva2ka_eq, if_pos rfl]
      cases hframe : userFrame r.mem.page d (pgrounddown va) with
      | none =>
        have hzero : ∀ pa0, (((pte r.mem.page d (pgrounddown va)).map fun e =>
            if e.p ∧ e.u then some (p2v e.addr) else none).or (some none)) = some pa0 →
              pa0.getD 0 = 0 := by
          intro pa0 heq
          unfold userFrame at hframe
          cases hpte : Xv6.pte r.mem.page d (pgrounddown va) with
          | none =>
            rw [hpte, Option.map_none, Option.none_or] at heq
            rw [← Option.some.inj heq, Option.getD_none]
          | some e =>
            rw [hpte, Option.map_some, Option.some_or] at heq
            rw [hpte, Option.bind_some] at hframe
            rw [← Option.some.inj heq]
            by_cases he : e.p ∧ e.u
            · rw [if_pos he, Option.getD_some]
              by_contra hne
              rw [if_pos ⟨he.1, he.2, hne⟩] at hframe
              cases hframe
            · rw [if_neg he, Option.getD_none]
        obtain ⟨pa0, hpa0⟩ : ∃ pa0, (((pte r.mem.page d (pgrounddown va)).map fun e =>
            if e.p ∧ e.u then some (p2v e.addr) else none).or (some none)) = some pa0 := by
          cases (pte r.mem.page d (pgrounddown va)).map fun e =>
            if e.p ∧ e.u then some (p2v e.addr) else none with
          | none => exact ⟨none, rfl⟩
          | some x => exact ⟨x, rfl⟩
        rw [hpa0, Option.bind_some, if_pos (hzero pa0 hpa0)]
        exact ⟨false, r, rfl, rfl, .of_eq rfl⟩
      | some f =>
        obtain ⟨e, hpte, hp, hu, hf, hne⟩ := userFrame_eq_some.mp hframe
        have hround : pgrounddown va < 2 ^ 32 := by
          unfold pgrounddown pgsize
          omega
        have hkern : pgrounddown va < kernbase := by
          by_contra hge
          rw [hprivate.userFrame_eq_none hround (by omega)] at hframe
          cases hframe
        obtain ⟨hmapped, hpage⟩ := userPage_of_userFrame hframe
        have hmem : f ∈ dirPages r.mem.page d := hpage ▸ userPage_mem hkern hmapped
        rw [hpte, Option.map_some, if_pos ⟨hp, hu⟩, hf, Option.some_or, Option.bind_some,
          Option.getD_some, if_neg hne]
        dsimp only
        have hoff : va - pgrounddown va + (p.take ((pgsize - (va - pgrounddown va)) ⊓
            p.length)).length ≤ pgsize := by
          rw [List.length_take]
          unfold pgrounddown pgsize
          omega
        have hchanges := (store_changes (r := r) (f := f) hoff).mono
          (Multiset.singleton_le.mpr hmem)
        have hshort : (p.drop ((pgsize - (va - pgrounddown va)) ⊓ p.length)).length <
            p.length := by
          rw [List.length_drop]
          unfold pgrounddown pgsize
          omega
        generalize hr₁ : r.store _ _ = r₁ at hchanges ⊢
        have hmem₁ : r₁.mem = r.mem := by rw [← hr₁, store_mem]
        obtain ⟨ok, r', hloop, hmem', hchanges'⟩ := ih _ hshort (r := r₁) (by rwa [hmem₁])
          (Nat.mod_lt (pgrounddown va + pgsize) (by norm_num)) rfl
        rw [hmem₁] at hmem' hchanges'
        exact ⟨ok, r', hloop, hmem', hchanges.trans hchanges'⟩
    · rw [dif_neg hlen]
      exact ⟨true, r, rfl, rfl, .of_eq rfl⟩

/-- A copy that returns 0 looks nothing up in an absent page table. -/
theorem copyoutWith_true {lenient : Bool} {va : ℕ} {p : List UInt8}
    (hcall : r.copyoutWith lenient d va p = some (true, r')) :
    r.copyout d va p = some (true, r') := by
  induction hn : p.length using Nat.strong_induction_on generalizing r va p with
  | _ n ih =>
    subst hn
    rw [copyoutWith] at hcall
    rw [copyout]
    by_cases hlen : 0 < p.length
    · rw [dif_pos hlen] at hcall ⊢
      cases huva : uva2ka r.mem d (pgrounddown va) with
      | none =>
        rw [huva, Option.none_or] at hcall
        cases lenient
        · simp at hcall
        · simp at hcall
      | some pa0 =>
        rw [huva, Option.some_or, Option.bind_some] at hcall
        rw [Option.bind_some]
        by_cases hzero : pa0.getD 0 = 0
        · rw [if_pos hzero] at hcall
          simp at hcall
        · rw [if_neg hzero] at hcall ⊢
          refine ih _ ?_ hcall rfl
          rw [List.length_drop]
          unfold pgrounddown pgsize
          omega
    · rw [dif_neg hlen] at hcall ⊢
      exact hcall

/-- What returns when null pointers are dereferenced returns the same when such lookups count as
failures. -/
theorem copyoutWith_mono {lenient : Bool} {va : ℕ} {p : List UInt8} {res : Bool × Ram}
    (hcall : r.copyoutWith lenient d va p = some res) : r.copyoutWith true d va p = some res := by
  induction hn : p.length using Nat.strong_induction_on generalizing r va p with
  | _ n ih =>
    subst hn
    rw [copyoutWith] at hcall ⊢
    by_cases hlen : 0 < p.length
    · rw [dif_pos hlen] at hcall ⊢
      cases huva : uva2ka r.mem d (pgrounddown va) with
      | none =>
        rw [huva, Option.none_or] at hcall
        rw [Option.none_or]
        cases lenient
        · simp at hcall
        · simpa using hcall
      | some pa0 =>
        rw [huva, Option.some_or, Option.bind_some] at hcall
        rw [Option.some_or, Option.bind_some]
        by_cases hzero : pa0.getD 0 = 0
        · rwa [if_pos hzero] at hcall ⊢
        · rw [if_neg hzero] at hcall ⊢
          refine ih _ ?_ hcall rfl
          rw [List.length_drop]
          unfold pgrounddown pgsize
          omega
    · rwa [dif_neg hlen] at hcall ⊢

theorem pushArgsWith_mono {lenient : Bool} {argv : List (List UInt8)} {argc sp : ℕ}
    {res : Option (ℕ × List ℕ) × Ram}
    (hcall : r.pushArgsWith lenient d argv argc sp = some res) :
    r.pushArgsWith true d argv argc sp = some res := by
  induction argv generalizing argc sp r res with
  | nil => exact hcall
  | cons s argv ih =>
    rw [pushArgsWith] at hcall ⊢
    split_ifs at hcall ⊢
    · exact hcall
    · dsimp only at hcall ⊢
      obtain ⟨⟨ok, r₁⟩, hcopy, hcall⟩ := Option.bind_eq_some_iff.mp hcall
      rw [copyoutWith_mono hcopy, Option.bind_some]
      dsimp only at hcall ⊢
      split_ifs at hcall ⊢
      · obtain ⟨res₁, hpush, hres⟩ := Option.map_eq_some_iff.mp hcall
        rw [ih hpush, Option.map_some, hres]
      · exact hcall

theorem execStackWith_mono {lenient : Bool} {sz : ℕ} {argv : List (List UInt8)}
    {res : Option (ℕ × ℕ) × Ram} (hcall : r.execStackWith lenient img d sz argv = some res) :
    r.execStackWith true img d sz argv = some res := by
  rw [execStackWith] at hcall ⊢
  obtain ⟨⟨sz₁, r₁⟩, halloc, hcall⟩ := Option.bind_eq_some_iff.mp hcall
  rw [halloc, Option.bind_some]
  dsimp only at hcall ⊢
  split_ifs at hcall ⊢
  · exact hcall
  · obtain ⟨r₂, hclear, hcall⟩ := Option.bind_eq_some_iff.mp hcall
    obtain ⟨⟨res₂, r₃⟩, hpush, hcall⟩ := Option.bind_eq_some_iff.mp hcall
    rw [hclear, Option.bind_some, pushArgsWith_mono hpush, Option.bind_some]
    obtain _ | ⟨sp, ptrs⟩ := res₂
    · exact hcall
    · dsimp only at hcall ⊢
      obtain ⟨res₃, hcopy, hres⟩ := Option.map_eq_some_iff.mp hcall
      rw [copyoutWith_mono hcopy, Option.map_some, hres]

theorem pushArgsWith_some {lenient : Bool} {argv : List (List UInt8)} {argc sp : ℕ}
    {x : ℕ × List ℕ} (hcall : r.pushArgsWith lenient d argv argc sp = some (some x, r')) :
    r.pushArgs d argv argc sp = some (some x, r') := by
  induction argv generalizing argc sp r x with
  | nil => exact hcall
  | cons s argv ih =>
    rw [pushArgsWith] at hcall
    rw [pushArgs]
    split_ifs at hcall ⊢
    · simp at hcall
    · dsimp only at hcall ⊢
      obtain ⟨⟨ok, r₁⟩, hcopy, hcall⟩ := Option.bind_eq_some_iff.mp hcall
      cases ok with
      | false => simp at hcall
      | true =>
        rw [copyoutWith_true hcopy, Option.bind_some]
        dsimp only at hcall ⊢
        rw [if_pos rfl] at hcall ⊢
        obtain ⟨⟨res, r₂⟩, hpush, hres⟩ := Option.map_eq_some_iff.mp hcall
        obtain ⟨hsome, rfl⟩ := Prod.mk.inj hres
        obtain ⟨y, rfl, heq⟩ := Option.map_eq_some_iff.mp hsome
        rw [ih hpush, Option.map_some, Option.map_some, heq]

/-- Pushing the strings writes to pages of the address space only. -/
theorem pushArgsWith_ram (argv : List (List UInt8)) (argc sp : ℕ)
    (hprivate : KernelPrivate r.mem.page d) :
    ∃ res r', r.pushArgsWith true d argv argc sp = some (res, r') ∧ r'.mem = r.mem ∧
      Changes (dirPages r.mem.page d) r r' := by
  induction argv generalizing argc sp r with
  | nil => exact ⟨_, r, rfl, rfl, .of_eq rfl⟩
  | cons s argv ih =>
    rw [pushArgsWith]
    split_ifs
    · exact ⟨none, r, rfl, rfl, .of_eq rfl⟩
    · dsimp only
      have hva : wrapUint ((sp : ℤ) - (s.length + 1)) / 4 * 4 < 2 ^ 32 := by
        unfold wrapUint
        omega
      generalize wrapUint ((sp : ℤ) - (s.length + 1)) / 4 * 4 = va at hva
      obtain ⟨ok, r₁, hcopy, hmem₁, hchanges₁⟩ :=
        copyoutWith_ram (p := s ++ [0]) hprivate hva
      rw [hcopy, Option.bind_some]
      dsimp only
      cases ok with
      | false => exact ⟨none, r₁, rfl, hmem₁, hchanges₁⟩
      | true =>
        obtain ⟨res, r₂, hpush, hmem₂, hchanges₂⟩ := ih (argc + 1) va (r := r₁) (by rwa [hmem₁])
        rw [hmem₁] at hmem₂ hchanges₂
        rw [if_pos rfl, hpush, Option.map_some]
        exact ⟨_, r₂, rfl, hmem₂, hchanges₁.trans hchanges₂⟩

/-- `clearpteu` changes one bit of one entry. -/
theorem clearpteu_within {uva : ℕ} (huva : uva < kernbase) (hmapped : Mapped r.mem.page d uva)
    (hsafe : Safe img r d) :
    ∃ r', r.clearpteu d uva = some r' ∧ r.Within d r' ∧
      (∀ b < 2 ^ 32, Mapped r'.mem.page d b ↔ Mapped r.mem.page d b) ∧
      ∀ b < kernbase, r'.userByte d b = r.userByte d b := by
  have hnodup := (Multiset.nodup_add.mp hsafe.nodup).2.1
  obtain ⟨m', hclear, hremaps⟩ := clearpteu_spec hmapped hsafe
  have hpte : ∀ b < 2 ^ 32, pte m'.page d b =
      if b / 4096 = uva / 4096 then
        (pte r.mem.page d uva).map fun e => { e with u := false }
      else pte r.mem.page d b := by
    intro b hb
    have huva' : uva < 2 ^ 32 := by
      unfold kernbase at huva
      omega
    have hiff := pdx_ptx_eq_iff huva' hb
    rw [Xv6.clearpteu, walkpgdir_false, if_pos hmapped.1] at hclear
    obtain rfl := Option.some.inj hclear
    rw [setEntry_pte hnodup hmapped.1, if_congr hiff rfl rfl]
    split_ifs
    · rw [Xv6.pte, if_pos hmapped.1, Option.map_some]
    · rfl
  refine ⟨{ r with mem := m' }, by rw [clearpteu, hclear, Option.map_some],
    ⟨hremaps.moves, .of_eq rfl, fun b hb _ => hremaps.mapped_iff b hb, fun b hb hlow _ => ?_⟩,
    hremaps.mapped_iff, fun b hb => ?_⟩
  · dsimp only
    rw [hpte b hb, if_neg]
    unfold kernbase at huva hlow
    omega
  · have hb' : b < 2 ^ 32 := by
      unfold kernbase at hb
      omega
    unfold userByte
    dsimp only
    rw [hpte b hb']
    split_ifs with hpage
    · have huva' : uva < 2 ^ 32 := by
        unfold kernbase at huva
        omega
      rw [pte_congr_page huva' hb' hpage]
      cases Xv6.pte r.mem.page d uva <;> rfl
    · rfl

/-- A copy to the user stack that returns 0 does not change what is below. -/
theorem copyout_below {top sp va b : ℕ} {p : List UInt8} (htop : r.TopPage d top)
    (hsafe : Safe img r d) (hsp : top ≤ sp) (hsp' : sp ≤ top + pgsize) (hsp4 : sp % 4 = 0)
    (hlen : 0 < p.length) (hva : va = wrapUint ((sp : ℤ) - p.length) / 4 * 4)
    (hcall : r.copyout d va p = some (true, r')) (hb : b < top) :
    r'.userByte d b = r.userByte d b := by
  have hva32 : va < 2 ^ 32 := by
    rw [hva]
    unfold wrapUint
    omega
  have hpage := htop.aligned
  have hhigh := htop.high
  unfold pgsize at hpage
  obtain ⟨hframes, rfl⟩ := copyout_eq_true hva32 hcall
  obtain ⟨hlow, hend⟩ := range_in_top htop.guard htop.low htop.high hsp hsp' (by omega) hsp4 hlen
    hva hframes
  clear hcall
  obtain ⟨f, hframe⟩ := Option.isSome_iff_exists.mp (hframes 0 hlen)
  clear hframes
  rw [Nat.add_zero, Nat.mod_eq_of_lt hva32] at hframe
  unfold pgsize at hsp' hhigh
  have hfits : va % 4096 + p.length ≤ 4096 := by omega
  have hakern : va < kernbase := by omega
  have hbkern : b < kernbase := by omega
  have hne : b / 4096 ≠ va / 4096 := by omega
  rw [writeUser_page hva32 hframe hfits]
  obtain ⟨hmapped, hframe⟩ := userPage_of_userFrame hframe
  have hchanges := @store_changes r f (va % pgsize) p hfits
  rw [← hframe] at hchanges ⊢
  exact hchanges.userByte_of_ne hsafe (store_mem _ _ _) hakern hmapped hbkern hne

/-- Pushing the strings does not change what is below the top page. -/
theorem pushArgs_below {argv : List (List UInt8)} {top argc sp b : ℕ} {x : ℕ × List ℕ}
    (htop : r.TopPage d top) (hsafe : Safe img r d) (hsp : top ≤ sp) (hsp' : sp ≤ top + pgsize)
    (hsp4 : sp % 4 = 0) (hcall : r.pushArgs d argv argc sp = some (some x, r')) (hb : b < top) :
    r'.userByte d b = r.userByte d b := by
  induction argv generalizing argc sp r x with
  | nil =>
    obtain ⟨-, rfl⟩ := Prod.mk.inj (Option.some.inj hcall)
    rfl
  | cons s argv ih =>
    rw [pushArgs] at hcall
    split_ifs at hcall
    · simp at hcall
    · have hlength : (s ++ [0]).length = s.length + 1 := by simp
      generalize hva : wrapUint ((sp : ℤ) - (s.length + 1)) / 4 * 4 = va at hcall
      dsimp only at hcall
      obtain ⟨⟨ok, r₁⟩, hcopy, hcall⟩ := Option.bind_eq_some_iff.mp hcall
      cases ok with
      | false => simp at hcall
      | true =>
        obtain ⟨⟨res, r₂⟩, hpush, hres⟩ := Option.map_eq_some_iff.mp hcall
        obtain ⟨hsome, rfl⟩ := Prod.mk.inj hres
        obtain ⟨y, rfl, -⟩ := Option.map_eq_some_iff.mp hsome
        have hpos : 0 < (s ++ [0]).length := by
          rw [hlength]
          omega
        have hva' : va = wrapUint ((sp : ℤ) - (s ++ [0]).length) / 4 * 4 := by
          rw [hlength, ← hva]
          norm_cast
        obtain ⟨hlow, hend, hmem, -, -⟩ := copyout_top htop hsp hsp' hsp4 hpos hva' hcopy
        have hsafe₁ : Safe img r₁ d := by
          unfold Safe
          rwa [hmem]
        rw [ih (htop.congr hmem) hsafe₁ hlow (by omega) (by omega) hpush]
        exact copyout_below htop hsafe hsp hsp' hsp4 hpos hva' hcopy hb

end Ram

end Xv6
