import Xv6.ExecArguments

/-!
# The memory of a new process

`copyuvm` with the bytes that it copies. Whatever runs out, the computation writes only to pages
that it takes from the free list, so the parent keeps its page directory, its page tables and
its memory.
-/

namespace Xv6.Ram

open PageStore ProcessMemory

/-- `memmove(page, src, PGSIZE)`. -/
def copyPage (r : Ram) (page src : ℕ) : Ram :=
  { r with
    byte := fun a => if page ≤ a ∧ a < page + pgsize then r.byte (src + (a - page)) else r.byte a }

/-- The loop of `copyuvm`, from the address `i` on. -/
def copyuvmFrom (img : KernelImage) (pgdir sz d i : ℕ) (r : Ram) : Option (Option ℕ × Ram) :=
  if _h : i < sz then
    match walkpgdir r.mem pgdir i false with
    | (none, _) => none
    | (some (pgtab, j), _) =>
        let pte := r.mem.page pgtab j
        if !pte.p then none
        else
          match r.kalloc with
          | (none, r) => (r.freevm img d).map fun r => (none, r)
          | (some mem, r) =>
              (mappages d i pgsize (v2p mem) pte.flags (r.copyPage mem (p2v pte.addr))).bind
                fun (ok, r) =>
                  if ok then copyuvmFrom img pgdir sz d (i + pgsize) r
                  else (r.kfree img mem).bind fun r => (r.freevm img d).map fun r => (none, r)
  else some (some d, r)
termination_by sz - i
decreasing_by unfold pgsize; omega

/-- `copyuvm`: the new page directory, or null. -/
def copyuvm (img : KernelImage) (pgdir sz : ℕ) (r : Ram) : Option (Option ℕ × Ram) :=
  (r.setupkvm img).bind fun (d, r) =>
    match d with
    | none => some (none, r)
    | some d => copyuvmFrom img pgdir sz d 0 r

variable {img : KernelImage} {r r' r'' : Ram} {d : ℕ}

/-! ## Forgetting the bytes -/

theorem copyuvmFrom_mem (r : Ram) (src sz d i : ℕ) :
    (r.copyuvmFrom img src sz d i).map (Prod.map id mem) =
      Xv6.copyuvmFrom img src sz d i r.mem := by
  induction hn : sz - i using Nat.strong_induction_on generalizing i r with
  | _ n ih =>
    subst hn
    rw [copyuvmFrom, Xv6.copyuvmFrom]
    by_cases hi : i < sz
    · rw [dif_pos hi, dif_pos hi, walkpgdir_false]
      by_cases hp : (r.mem.page src (pdx i)).p
      · rw [if_pos hp]
        dsimp only
        generalize r.mem.page (pageTable r.mem.page src (pdx i)) (ptx i) = e
        cases e.p
        · rfl
        · unfold kalloc
          rw [if_neg (by simp), if_neg (by simp)]
          obtain ⟨_ | f, m₁⟩ := Xv6.kalloc r.mem
          · dsimp only
            rw [← freevm_mem { r with mem := m₁ }]
            simp [Function.comp_def]
          · dsimp only [mappages, copyPage]
            obtain _ | ⟨ok, m₂⟩ := Xv6.mappages d i pgsize (v2p f) e.flags m₁
            · rw [Option.map_none, Option.bind_none, Option.bind_none, Option.map_none]
            · rw [Option.map_some, Option.bind_some, Option.bind_some]
              dsimp only
              generalize hr₂ : (⟨m₂, _⟩ : Ram) = r₂
              have hm₂ : m₂ = r₂.mem := by rw [← hr₂]
              rw [hm₂]
              cases ok
              · rw [if_neg Bool.false_ne_true, if_neg Bool.false_ne_true, ← kfree_mem]
                cases r₂.kfree img f with
                | none => rfl
                | some r₃ =>
                  rw [Option.map_some, Option.bind_some, Option.bind_some, ← freevm_mem]
                  simp [Function.comp_def]
              · rw [if_pos rfl, if_pos rfl, ih _ (by unfold pgsize; omega) _ _ rfl]
      · rw [if_neg hp]
        rfl
    · rw [dif_neg hi, dif_neg hi]
      rfl

/-- Without the bytes, `copyuvm` is that of `Vm.lean`. -/
theorem copyuvm_mem (r : Ram) (src sz : ℕ) :
    (r.copyuvm img src sz).map (Prod.map id mem) = Xv6.copyuvm img src sz r.mem := by
  rw [copyuvm, Xv6.copyuvm, ← setupkvm_mem]
  obtain _ | ⟨_ | d, r₁⟩ := r.setupkvm img
  · rfl
  · rfl
  · exact copyuvmFrom_mem r₁ src sz d 0

/-! ## Where bytes change -/

/-- Bytes change only in these pages. -/
def Changes (pages : Multiset ℕ) (r r' : Ram) : Prop :=
  ∀ a, r'.byte a = r.byte a ∨ ∃ f ∈ pages, f ≤ a ∧ a < f + pgsize

theorem Changes.of_eq {pages : Multiset ℕ} (hbyte : r'.byte = r.byte) : Changes pages r r' :=
  fun a => .inl (congrFun hbyte a)

theorem Changes.trans {pages : Multiset ℕ} (hfirst : Changes pages r r')
    (hsecond : Changes pages r' r'') : Changes pages r r'' := by
  intro a
  obtain hsame | hchanged := hsecond a
  · obtain hsame' | hchanged := hfirst a
    · exact .inl (hsame.trans hsame')
    · exact .inr hchanged
  · exact .inr hchanged

theorem Changes.mono {pages pages' : Multiset ℕ} (hchanges : Changes pages r r')
    (hle : pages ≤ pages') : Changes pages' r r' := by
  intro a
  obtain hsame | ⟨f, hf, hrange⟩ := hchanges a
  · exact .inl hsame
  · exact .inr ⟨f, Multiset.mem_of_le hle hf, hrange⟩

theorem Frees.changes (hfrees : r.Frees r') : Changes r'.mem.free r r' := hfrees.byte

theorem fill_changes (r : Ram) (f : ℕ) (b : UInt8) : Changes {f} r (r.fill f b) := by
  intro a
  unfold fill
  dsimp only
  split_ifs with ha
  · exact .inr ⟨f, Multiset.mem_singleton_self f, ha⟩
  · exact .inl rfl

theorem copyPage_changes (r : Ram) (f src : ℕ) : Changes {f} r (r.copyPage f src) := by
  intro a
  unfold copyPage
  dsimp only
  split_ifs with ha
  · exact .inr ⟨f, Multiset.mem_singleton_self f, ha⟩
  · exact .inl rfl

theorem copyPage_byte (r : Ram) (f src : ℕ) {k : ℕ} (hk : k < pgsize) :
    (r.copyPage f src).byte (f + k) = r.byte (src + k) := by
  unfold copyPage
  dsimp only
  rw [if_pos ⟨Nat.le_add_right f k, Nat.add_lt_add_left hk f⟩, Nat.add_sub_cancel_left]

/-- Bytes of other pages stay. -/
theorem Changes.page_byte {pages rest : Multiset ℕ} (hchanges : Changes pages r r')
    (hsound : Sound img (pages + rest)) {f k : ℕ} (hf : f ∈ rest) (hk : k < pgsize) :
    r'.byte (f + k) = r.byte (f + k) := by
  apply (hchanges (f + k)).resolve_right
  rintro ⟨g, hg, hrange⟩
  have hbounds := (hsound.allocatable g (Multiset.mem_add.mpr (.inl hg))).aligned
  have hbounds' := (hsound.allocatable f (Multiset.mem_add.mpr (.inr hf))).aligned
  unfold pgsize at hrange hk hbounds hbounds'
  have heq : g = f := by omega
  exact Multiset.disjoint_left.mp (Multiset.nodup_add.mp hsound.nodup).2.2 hg (heq ▸ hf)

/-- An entry that stays still leads to the same byte, if the pages that change are not those of
the address space. -/
theorem Changes.userByte_eq {pages : Multiset ℕ} {b : ℕ} (hchanges : Changes pages r r')
    (hsound : Sound img (pages + dirPages r.mem.page d)) (hb : b < kernbase)
    (hpte : pte r'.mem.page d b = pte r.mem.page d b) : r'.userByte d b = r.userByte d b := by
  unfold userByte
  rw [hpte]
  cases hentry : Xv6.pte r.mem.page d b with
  | none => rfl
  | some e =>
    rw [Option.bind_some, Option.bind_some]
    split_ifs with hp
    · have hmapped : Mapped r.mem.page d b := mapped_iff_pte.mpr ⟨e, hentry, hp⟩
      have hpage : userPage r.mem.page d b = p2v e.addr := by
        rw [Xv6.pte, if_pos hmapped.1] at hentry
        obtain rfl := Option.some.inj hentry
        rfl
      have hmem : p2v e.addr ∈ dirPages r.mem.page d := hpage ▸ userPage_mem hb hmapped
      rw [hchanges.page_byte hsound hmem (Nat.mod_lt _ (by unfold pgsize; omega))]
    · rfl

/-! ## `setupkvm` and `freevm` -/

/-- `setupkvm` writes no bytes, unless it has to free what it has built. -/
theorem setupkvmMap_byte {ks : List Kmap} {res : Option ℕ}
    (hcall : setupkvmMap img d ks r = some (res, r')) :
    res = some d ∧ r'.byte = r.byte ∨ res = none ∧ Changes r'.mem.free r r' := by
  induction ks generalizing r with
  | nil =>
    simp only [setupkvmMap, Option.some.injEq, Prod.mk.injEq] at hcall
    obtain ⟨rfl, rfl⟩ := hcall
    exact .inl ⟨rfl, rfl⟩
  | cons k ks ih =>
    rw [setupkvmMap] at hcall
    obtain ⟨⟨ok, r₁⟩, hmap, hcall⟩ := Option.bind_eq_some_iff.mp hcall
    obtain ⟨⟨ok', m₁⟩, -, heq⟩ := Option.map_eq_some_iff.mp hmap
    obtain ⟨-, rfl⟩ := Prod.mk.inj heq
    dsimp only at hcall
    split_ifs at hcall
    · have hrest := ih hcall
      exact hrest
    · obtain ⟨r₂, hfree, heq⟩ := Option.map_eq_some_iff.mp hcall
      obtain ⟨rfl, rfl⟩ := Prod.mk.inj heq
      exact .inr ⟨rfl, (freevm_frees hfree).changes⟩

/-- `setupkvm`: an address space without user pages, or everything is given back. -/
theorem setupkvm_ram (hsound : Sound img r.mem.free) :
    (∃ d r', r.setupkvm img = some (some d, r') ∧ r'.byte = r.byte ∧
      Moves r.mem 0 r'.mem (dirPages r'.mem.page d) ∧ KernelOnly r'.mem.page d (2 ^ 32)) ∨
    ∃ r', r.setupkvm img = some (none, r') ∧ Changes r.mem.free r r' ∧
      Moves r.mem 0 r'.mem 0 := by
  have hbyte : ∀ res r', r.setupkvm img = some (res, r') →
      (res ≠ none → r'.byte = r.byte) ∧ (res = none → Changes r'.mem.free r r') := by
    intro res r' hcall
    rw [setupkvm, kalloc] at hcall
    generalize Xv6.kalloc r.mem = taken at hcall
    obtain ⟨_ | d, m₁⟩ := taken
    · obtain ⟨rfl, rfl⟩ := Prod.mk.inj (Option.some.inj hcall)
      exact ⟨fun h => absurd rfl h, fun _ => .of_eq rfl⟩
    · dsimp only at hcall
      split_ifs at hcall
      obtain ⟨rfl, hsame⟩ | ⟨rfl, hchanges⟩ := setupkvmMap_byte hcall
      · exact ⟨fun _ => hsame, fun h => by cases h⟩
      · exact ⟨fun h => absurd rfl h, fun _ => hchanges⟩
  have hmem := @setupkvm_mem img r
  obtain ⟨d, m', hsetup, hmoves, hkernel⟩ | ⟨m', hsetup, hmoves, -⟩ := setupkvm_spec hsound
  · rw [hsetup, Option.map_eq_some_iff] at hmem
    obtain ⟨⟨res, r'⟩, hcall, heq⟩ := hmem
    obtain ⟨rfl, rfl⟩ := Prod.mk.inj heq
    exact .inl ⟨d, r', hcall, (hbyte _ _ hcall).1 (by simp), hmoves, hkernel⟩
  · rw [hsetup, Option.map_eq_some_iff] at hmem
    obtain ⟨⟨res, r'⟩, hcall, heq⟩ := hmem
    obtain ⟨rfl, rfl⟩ := Prod.mk.inj heq
    have hfree : (r'.mem.free : Multiset ℕ) = r.mem.free := by simpa using hmoves.total
    exact .inr ⟨r', hcall, hfree ▸ (hbyte _ _ hcall).2 rfl, hmoves⟩

/-- `freevm` gives back the whole address space, and writes to its pages only. -/
theorem freevm_ram (hsafe : Safe img r d) :
    ∃ r', r.freevm img d = some r' ∧ Moves r.mem (dirPages r.mem.page d) r'.mem 0 ∧
      Changes (r.mem.free + dirPages r.mem.page d) r r' := by
  obtain ⟨m', hfreevm, hmoves⟩ := freevm_spec hsafe
  rw [← freevm_mem, Option.map_eq_some_iff] at hfreevm
  obtain ⟨r', hcall, rfl⟩ := hfreevm
  refine ⟨r', hcall, hmoves, ?_⟩
  rw [← hmoves.total, add_zero]
  exact (freevm_frees hcall).changes

/-! ## The copy -/

variable {src sz i : ℕ}

/-- The page of `b` is copied: the entry has the same flags, all of them, and the page the same
contents. -/
structure Copied (r : Ram) (src : ℕ) (r' : Ram) (d b : ℕ) : Prop where
  /-- The entries. -/
  entry : ∃ e e', pte r.mem.page src b = some e ∧ pte r'.mem.page d b = some e' ∧ e.p ∧ e'.p ∧
    e'.flags = e.flags
  /-- The contents. -/
  byte : r'.userByte d b = r.userByte src b

/-- The pages from `i` up to the last one that starts below `sz` are copied. -/
structure Copying (r : Ram) (src d i sz : ℕ) (r' : Ram) : Prop where
  /-- Pages move from the free list to the copy. -/
  moves : Moves r.mem (dirPages r.mem.page d) r'.mem (dirPages r'.mem.page d)
  /-- Only these pages are written. -/
  changes : Changes (r.mem.free + dirPages r.mem.page d) r r'
  /-- What is mapped. -/
  mapped_iff : ∀ b < 2 ^ 32, Mapped r'.mem.page d b ↔
    Mapped r.mem.page d b ∨ i ≤ b ∧ b / 4096 * 4096 < sz
  /-- What was mapped keeps its entry. -/
  old : ∀ b < 2 ^ 32, Mapped r.mem.page d b → pte r'.mem.page d b = pte r.mem.page d b
  /-- What was mapped keeps its contents. -/
  oldByte : ∀ b < kernbase, Mapped r.mem.page d b → r'.userByte d b = r.userByte d b
  /-- The pages are copies. -/
  copied : ∀ b < kernbase, i ≤ b → b / 4096 * 4096 < sz → Copied r src r' d b

/-- What lies outside of the pages that move and change is as before. -/
theorem kept_of_moves {held held' : Multiset ℕ}
    (hsound : Sound img (r.mem.free + held + dirPages r.mem.page src))
    (hmoves : Moves r.mem held r'.mem held') (hchanges : Changes (r.mem.free + held) r r') :
    (∀ f ∈ dirPages r.mem.page src, r'.mem.page f = r.mem.page f) ∧
      ∀ b < kernbase, r'.userByte src b = r.userByte src b := by
  have hsame : ∀ f ∈ dirPages r.mem.page src, r'.mem.page f = r.mem.page f := fun f hf =>
    hmoves.page_of_mem_rest hsound.nodup hf
  exact ⟨hsame, fun b hb => hchanges.userByte_eq hsound hb (pte_congr hsame b)⟩

theorem Copying.trans (hsound : Sound img (r.mem.free + dirPages r.mem.page d +
      dirPages r.mem.page src)) (hi : i % 4096 = 0) (hfirst : Copying r src d i (i + 1) r')
    (hrest : Copying r' src d (i + pgsize) sz r'') (hlt : i < sz) : Copying r src d i sz r'' := by
  obtain ⟨hwords, hbytes⟩ := kept_of_moves hsound hfirst.moves hfirst.changes
  have hchanges := hrest.changes
  rw [hfirst.moves.total] at hchanges
  refine ⟨hfirst.moves.trans hrest.moves, hfirst.changes.trans hchanges, fun b hb => ?_,
    fun b hb hmapped => ?_, fun b hb hmapped => ?_, fun b hb hle hlt' => ?_⟩
  · rw [hrest.mapped_iff b hb, hfirst.mapped_iff b hb, or_assoc]
    apply or_congr_right
    unfold pgsize
    omega
  · have hmapped' := (hfirst.mapped_iff b hb).mpr (.inl hmapped)
    rw [hrest.old b hb hmapped', hfirst.old b hb hmapped]
  · have hb' : b < 2 ^ 32 := by
      unfold kernbase at hb
      omega
    have hmapped' := (hfirst.mapped_iff b hb').mpr (.inl hmapped)
    rw [hrest.oldByte b hb hmapped', hfirst.oldByte b hb hmapped]
  · have hb' : b < 2 ^ 32 := by
      unfold kernbase at hb
      omega
    by_cases hpage : b / 4096 * 4096 < i + 1
    · have hmapped := (hfirst.mapped_iff b hb').mpr (.inr ⟨hle, hpage⟩)
      obtain ⟨hentry, hbyte⟩ := hfirst.copied b hb hle hpage
      refine ⟨?_, (hrest.oldByte b hb hmapped).trans hbyte⟩
      rwa [hrest.old b hb' hmapped]
    · obtain ⟨hentry, hbyte⟩ := hrest.copied b hb (by unfold pgsize; omega) hlt'
      refine ⟨?_, hbyte.trans (hbytes b hb)⟩
      rwa [← pte_congr hwords]

theorem present_flags (pa : ℕ) (perm : Perm) : (Pte.present pa perm).p ∧
    (Pte.present pa perm).flags = perm :=
  ⟨rfl, rfl⟩

/-- One round of the loop: a page is copied, or nothing has changed but the page taken. -/
theorem copyuvmFrom_round {f : ℕ} {e : Pte} {m₁ : Mem}
    (hsound : Sound img (r.mem.free + dirPages r.mem.page d + dirPages r.mem.page src))
    (haligned : i % 4096 = 0) (hi : i < kernbase) (hunmapped : ¬ Mapped r.mem.page d i)
    (hentry : pte r.mem.page src i = some e) (hpresent : e.p)
    (halloc : Xv6.kalloc r.mem = (some f, m₁)) :
    Allocatable img f ∧
      ((∃ r', mappages d i pgsize (v2p f) e.flags
          (({ r with mem := m₁ } : Ram).copyPage f (p2v e.addr)) = some (false, r') ∧
        r'.mem = m₁ ∧ m₁.free = [] ∧ Changes {f} r r') ∨
      ∃ r', mappages d i pgsize (v2p f) e.flags
          (({ r with mem := m₁ } : Ram).copyPage f (p2v e.addr)) = some (true, r') ∧
        m₁.free.length ≤ r'.mem.free.length + 1 ∧ Copying r src d i (i + 1) r') := by
  have hsmall : Sound img (r.mem.free + dirPages r.mem.page d) :=
    hsound.mono (Multiset.le_add_right _ _)
  obtain ⟨hf, hpage, hsound₁, hmap⟩ := mapNew e.flags hsmall haligned hi hunmapped halloc
  refine ⟨hf, ?_⟩
  have hle : {f} ≤ (r.mem.free + dirPages r.mem.page d : Multiset ℕ) := by
    rw [Multiset.singleton_le]
    simp [(alloc_eq_some halloc).1]
  have hone : Sound img ({f} + dirPages r.mem.page d) := by
    apply hsmall.mono
    apply add_le_add_left
    rw [Multiset.singleton_le]
    simp [(alloc_eq_some halloc).1]
  have hchanges : Changes {f} r (({ r with mem := m₁ } : Ram).copyPage f (p2v e.addr)) := by
    have h := copyPage_changes { r with mem := m₁ } f (p2v e.addr)
    exact h
  have hmem : (({ r with mem := m₁ } : Ram).copyPage f (p2v e.addr)).mem = m₁ := rfl
  unfold mappages
  rw [hmem]
  obtain ⟨hmap, hnone⟩ | ⟨m₂, hmap, hgrown⟩ := hmap
  · refine .inl ⟨_, by rw [hmap, Option.map_some], rfl, hnone, ?_⟩
    exact hchanges
  have hsmall₁ : Sound img (m₁.free + dirPages m₁.page d) :=
    hsound₁.mono (add_le_add_right (Multiset.le_cons_self _ _) _)
  obtain ⟨hkept, hnew⟩ := mappages_pte hsmall₁ haligned hi (by rwa [hpage]) hmap
  rw [hpage] at hkept
  have hi' := hi
  unfold kernbase at hi'
  refine .inr ⟨_, by rw [hmap, Option.map_some], mappages_length hi haligned hmap, hgrown.moves,
    ?_, fun b hb => ?_, hkept,
    fun b hb hmapped => ?_, fun b hb hib hlt => ?_⟩
  · have h := hchanges.mono hle
    exact h
  · rw [hgrown.mapped_iff b hb]
    apply or_congr_right
    omega
  · have hb' : b < 2 ^ 32 := by
      unfold kernbase at hb
      omega
    exact Changes.userByte_eq hchanges hone hb (hkept b hb' hmapped)
  · have hb' : b < 2 ^ 32 := by
      unfold kernbase at hb
      omega
    have hsame : b / 4096 = i / 4096 := by omega
    rw [← pte_congr_page (by omega) hb' hsame] at hentry hnew
    refine ⟨⟨e, _, hentry, hnew, hpresent, present_flags _ _⟩, ?_⟩
    rw [userByte, userByte, hentry, hnew, Option.bind_some, Option.bind_some,
      if_pos (present_flags _ _).1, if_pos hpresent, Pte.present, p2v_v2p hf]
    have hoffset : b % pgsize < pgsize := by
      unfold pgsize
      omega
    exact congrArg some (copyPage_byte { r with mem := m₁ } f (p2v e.addr) hoffset)

/-- The loop of `copyuvm`, when the pages of the parent are there: the copy is complete, or
everything is given back. -/
theorem copyuvmFrom_ram (hsz : sz ≤ kernbase) (haligned : i % 4096 = 0)
    (habove : ∀ b < kernbase, i ≤ b → ¬ Mapped r.mem.page d b)
    (hpresent : ∀ b < sz, Mapped r.mem.page src b)
    (hsound : Sound img (r.mem.free + dirPages r.mem.page d + dirPages r.mem.page src)) :
    (∃ r', r.copyuvmFrom img src sz d i = some (some d, r') ∧ Copying r src d i sz r') ∨
    ∃ r', r.copyuvmFrom img src sz d i = some (none, r') ∧
      Moves r.mem (dirPages r.mem.page d) r'.mem 0 ∧
      Changes (r.mem.free + dirPages r.mem.page d) r r' := by
  induction hn : sz - i using Nat.strong_induction_on generalizing i r with
  | _ n ih =>
    subst hn
    rw [copyuvmFrom]
    by_cases hi : i < sz
    · have hsmall : Sound img (r.mem.free + dirPages r.mem.page d) :=
        hsound.mono (Multiset.le_add_right _ _)
      have hmapped := hpresent i hi
      rw [dif_pos hi, walkpgdir_false, if_pos hmapped.1]
      have hentry : Xv6.pte r.mem.page src i =
          some (r.mem.page (pageTable r.mem.page src (pdx i)) (ptx i)) := by
        rw [Xv6.pte, if_pos hmapped.1]
      have hp := hmapped.2
      dsimp only
      generalize r.mem.page (pageTable r.mem.page src (pdx i)) (ptx i) = e at hentry hp
      rw [if_neg (by simp [hp]), kalloc]
      cases halloc : Xv6.kalloc r.mem with
      | mk f m₁ =>
        cases f with
        | none =>
          obtain ⟨rfl, -⟩ := alloc_eq_none halloc
          obtain ⟨r', hfree, hmoves, hchanges⟩ := freevm_ram hsmall
          dsimp only
          rw [hfree, Option.map_some]
          exact .inr ⟨r', rfl, hmoves, hchanges⟩
        | some f =>
          dsimp only
          have hikern : i < kernbase := hi.trans_le hsz
          obtain ⟨hf, hround⟩ := copyuvmFrom_round hsound haligned hikern
            (habove i hikern le_rfl) hentry hp halloc
          obtain ⟨r₁, hmap, hmem, -, hchanges⟩ | ⟨r₁, hmap, -, hcopying⟩ := hround
          · rw [hmap, Option.bind_some]
            dsimp only
            have hpage := (alloc_eq_some halloc).2
            have htake := Moves.alloc halloc (dirPages r.mem.page d)
            have hheld : Sound img (m₁.free + f ::ₘ dirPages m₁.page d) := by
              rw [hpage]
              rwa [htake.total]
            obtain ⟨hpages, -⟩ := release_frame (Multiset.nodup_add.mp hheld.nodup).2.1
            have hrelease := Moves.release m₁ (fun _ => Pte.junk) f (dirPages m₁.page d)
            rw [← hrelease.total, ← hpages] at hheld
            set r₂ : Ram := { r₁.fill f 1 with mem := m₁.release (fun _ => Pte.junk) f } with hr₂
            have hkfree : r₁.kfree img f = some r₂ := by
              rw [kfree, hmem, kfree_eq hf, Option.map_some]
            obtain ⟨r', hfree, hmoves, hchanges'⟩ := freevm_ram (r := r₂) hheld
            rw [if_neg Bool.false_ne_true, hkfree, Option.bind_some, hfree, Option.map_some]
            have hfirst : Moves r.mem (dirPages r.mem.page d) r₂.mem (dirPages r₂.mem.page d) := by
              rw [hpage] at hrelease hpages
              rw [hr₂]
              dsimp only
              rw [hpages]
              exact htake.trans hrelease
            rw [hfirst.total] at hchanges'
            have hone : {f} ≤ (r.mem.free + dirPages r.mem.page d : Multiset ℕ) := by
              rw [Multiset.singleton_le]
              simp [(alloc_eq_some halloc).1]
            have hfill : Changes {f} r₁ r₂ := fill_changes r₁ f 1
            exact .inr ⟨r', rfl, hfirst.trans hmoves,
              ((hchanges.trans hfill).mono hone).trans hchanges'⟩
          · rw [hmap, Option.bind_some]
            dsimp only
            rw [if_pos rfl]
            obtain ⟨hwords, hbytes⟩ := kept_of_moves hsound hcopying.moves hcopying.changes
            have hnext : i + pgsize = i + 4096 := rfl
            have hrest := ih (sz - (i + pgsize)) (by omega) (r := r₁) (i := i + pgsize)
              (by omega) (fun b hb hle hmapped' => ?_) (fun b hb => ?_) ?_ rfl
            · obtain ⟨r', hloop, hcopying'⟩ | ⟨r', hloop, hmoves, hchanges⟩ := hrest
              · exact .inl ⟨r', hloop, hcopying.trans hsound haligned hcopying' hi⟩
              · rw [hcopying.moves.total] at hchanges
                exact .inr ⟨r', hloop, hcopying.moves.trans hmoves,
                  hcopying.changes.trans hchanges⟩
            · have hb' : b < 2 ^ 32 := by
                unfold kernbase at hb
                omega
              obtain hold | hnew := (hcopying.mapped_iff b hb').mp hmapped'
              · exact habove b hb (by omega) hold
              · omega
            · exact (mapped_congr hwords b).mpr (hpresent b hb)
            · rwa [hcopying.moves.total, dirPages_congr hwords]
    · rw [dif_neg hi]
      refine .inl ⟨r, rfl, .refl _ _, .of_eq rfl, fun b _ => ?_, fun _ _ _ => rfl,
        fun _ _ _ => rfl, fun b _ hle hlt => ?_⟩
      · rw [iff_self_or]
        omega
      · omega

/-- The copy of an address space of size `sz`: `r₁` is the memory after `setupkvm`, and `r'` that
after `copyuvm`. -/
structure Forked (r : Ram) (src sz : ℕ) (r₁ : Ram) (d : ℕ) (r' : Ram) : Prop where
  /-- The page directory, the page tables and the pages come from the free list. -/
  fresh : (r'.mem.free : Multiset ℕ) + dirPages r'.mem.page d = r.mem.free
  /-- The pages are copied, to pages from the free list. -/
  copied : ∀ b < kernbase, b / 4096 * 4096 < sz →
    Copied r src r' d b ∧ userPage r'.mem.page d b ∈ r.mem.free
  /-- Nothing else is mapped in the user half. -/
  user : ∀ b < kernbase, Mapped r'.mem.page d b ↔ b / 4096 * 4096 < sz
  /-- The kernel half is that of `setupkvm`. -/
  kernel : ∀ b < 2 ^ 32, kernbase ≤ b →
    (Mapped r'.mem.page d b ↔ Mapped r₁.mem.page d b) ∧
      (Mapped r₁.mem.page d b → pte r'.mem.page d b = pte r₁.mem.page d b)

/-- The parent's pages keep their words and their bytes. -/
def Unchanged (r : Ram) (src : ℕ) (r' : Ram) : Prop :=
  ∀ f ∈ dirPages r.mem.page src, r'.mem.page f = r.mem.page f ∧
    ∀ k < pgsize, r'.byte (f + k) = r.byte (f + k)

theorem unchanged_of_moves {held' : Multiset ℕ} (hsafe : Safe img r src)
    (hmoves : Moves r.mem 0 r'.mem held') (hchanges : Changes r.mem.free r r') :
    Unchanged r src r' := fun f hf =>
  ⟨hmoves.page_of_mem_rest (by simpa using hsafe.nodup) hf, fun _ hk =>
    hchanges.page_byte hsafe hf hk⟩

/-- **`copyuvm` copies the address space.** Either the copy is complete, or null is returned and
the free list has the pages it had; the parent is as before. -/
theorem copyuvm_forks (hsz : sz ≤ kernbase)
    (hpresent : ∀ b < pgroundup sz, Mapped r.mem.page src b) (hsafe : Safe img r src) :
    ∃ res r', r.copyuvm img src sz = some (res, r') ∧ Unchanged r src r' ∧
      match res with
      | none => (r'.mem.free : Multiset ℕ) = r.mem.free ∧ r'.mem.free.Nodup
      | some d => ∃ r₁, r.setupkvm img = some (some d, r₁) ∧ Forked r src sz r₁ d r' := by
  have hfree : Sound img r.mem.free := hsafe.mono (Multiset.le_add_right _ _)
  obtain ⟨d, r₁, hsetup, hbyte, hmoves₁, hkernel⟩ | ⟨r', hsetup, hchanges, hmoves⟩ :=
    setupkvm_ram hfree
  · have hzero : Sound img (r.mem.free + 0 + dirPages r.mem.page src) := by rwa [add_zero]
    obtain ⟨hwords, -⟩ := kept_of_moves hzero hmoves₁ (.of_eq hbyte)
    have hsound₁ : Sound img (r₁.mem.free + dirPages r₁.mem.page d + dirPages r₁.mem.page src) := by
      rwa [hmoves₁.total, dirPages_congr hwords]
    have hpresent₁ : ∀ b < sz, Mapped r₁.mem.page src b := by
      intro b hb
      apply (mapped_congr hwords b).mpr (hpresent b _)
      unfold kernbase at hsz
      unfold pgroundup pgsize
      omega
    have hfirst : Changes r.mem.free r r₁ := .of_eq hbyte
    obtain ⟨r', hloop, hcopying⟩ | ⟨r', hloop, hmoves, hchanges⟩ :=
      copyuvmFrom_ram hsz (Nat.zero_mod _) (fun b hb _ => hkernel.not_mapped hb) hpresent₁ hsound₁
    · have hmoves := hmoves₁.trans hcopying.moves
      have hchanges := hcopying.changes
      rw [hmoves₁.total, add_zero] at hchanges
      refine ⟨some d, r', ?_, unchanged_of_moves hsafe hmoves (hfirst.trans hchanges), r₁,
        hsetup, ?_⟩
      · rw [copyuvm, hsetup, Option.bind_some]
        exact hloop
      have hpages : (r'.mem.free : Multiset ℕ) + dirPages r'.mem.page d = r.mem.free := by
        rw [hmoves.total, add_zero]
      have huser : ∀ b < kernbase, Mapped r'.mem.page d b ↔ b / 4096 * 4096 < sz := by
        intro b hb
        have hnone := hkernel.not_mapped hb
        unfold kernbase at hb
        rw [hcopying.mapped_iff b (by omega), or_iff_right hnone, and_iff_right (Nat.zero_le b)]
      refine ⟨hpages, fun b hb hlt => ⟨?_, ?_⟩, huser, fun b hb hle => ⟨?_, ?_⟩⟩
      · obtain ⟨hentry, hcopy⟩ := hcopying.copied b hb (Nat.zero_le b) hlt
        have hsame := (Changes.of_eq hbyte).userByte_eq (d := src) hsafe hb (pte_congr hwords b)
        refine ⟨?_, hcopy.trans hsame⟩
        rwa [pte_congr hwords] at hentry
      · have hmem := userPage_mem hb ((huser b hb).mpr hlt)
        rw [← Multiset.mem_coe, ← hpages]
        exact Multiset.mem_add.mpr (.inr hmem)
      · rw [hcopying.mapped_iff b hb]
        apply or_iff_left
        unfold kernbase at hsz hle
        omega
      · exact hcopying.old b hb
    · rw [hmoves₁.total, add_zero] at hchanges
      have hall := hmoves₁.trans hmoves
      have hback : (r'.mem.free : Multiset ℕ) = r.mem.free := by simpa using hall.total
      refine ⟨none, r', ?_, unchanged_of_moves hsafe hall (hfirst.trans hchanges), hback, ?_⟩
      · rw [copyuvm, hsetup, Option.bind_some]
        exact hloop
      · rw [← Multiset.coe_nodup, hback]
        exact hfree.nodup
  · have hback : (r'.mem.free : Multiset ℕ) = r.mem.free := by simpa using hmoves.total
    refine ⟨none, r', ?_, unchanged_of_moves hsafe hmoves hchanges, hback, ?_⟩
    · rw [copyuvm, hsetup, Option.bind_some]
    · rw [← Multiset.coe_nodup, hback]
      exact hfree.nodup

/-- The loop of `copyuvm` gets to the end, if two pages are free for each page of the parent. -/
theorem copyuvmFrom_enough {n : ℕ} (hsz : sz ≤ kernbase) (haligned : i % 4096 = 0)
    (hcount : sz ≤ i + n * 4096) (habove : ∀ b < kernbase, i ≤ b → ¬ Mapped r.mem.page d b)
    (hpresent : ∀ b < sz, Mapped r.mem.page src b)
    (hsound : Sound img (r.mem.free + dirPages r.mem.page d + dirPages r.mem.page src))
    (hfree : 2 * n ≤ r.mem.free.length) :
    ∃ r', r.copyuvmFrom img src sz d i = some (some d, r') := by
  induction n generalizing i r with
  | zero =>
    refine ⟨r, ?_⟩
    rw [copyuvmFrom, dif_neg (by omega)]
  | succ n ih =>
    by_cases hi : i < sz
    · have hmapped := hpresent i hi
      have hentry : Xv6.pte r.mem.page src i =
          some (r.mem.page (pageTable r.mem.page src (pdx i)) (ptx i)) := by
        rw [Xv6.pte, if_pos hmapped.1]
      have hp := hmapped.2
      have hikern : i < kernbase := hi.trans_le hsz
      rw [copyuvmFrom, dif_pos hi, walkpgdir_false, if_pos hmapped.1]
      dsimp only
      generalize r.mem.page (pageTable r.mem.page src (pdx i)) (ptx i) = e at hentry hp
      rw [if_neg (by simp [hp]), kalloc]
      cases halloc : Xv6.kalloc r.mem with
      | mk f m₁ =>
        cases f with
        | none =>
          rw [(alloc_eq_none halloc).2, List.length_nil] at hfree
          omega
        | some f =>
          have hcons := congrArg List.length (alloc_eq_some halloc).1
          rw [List.length_cons] at hcons
          obtain ⟨-, ⟨r₁, -, -, hnone, -⟩ | ⟨r₁, hmap, hlength, hcopying⟩⟩ :=
            copyuvmFrom_round hsound haligned hikern (habove i hikern le_rfl) hentry hp halloc
          · rw [hnone, List.length_nil] at hcons
            omega
          · obtain ⟨hwords, -⟩ := kept_of_moves hsound hcopying.moves hcopying.changes
            have habove₁ : ∀ b < kernbase, i + pgsize ≤ b → ¬ Mapped r₁.mem.page d b := by
              intro b hb hle hmapped'
              have hb' : b < 2 ^ 32 := by
                unfold kernbase at hb
                omega
              unfold pgsize at hle
              obtain hold | hnew := (hcopying.mapped_iff b hb').mp hmapped'
              · exact habove b hb (by omega) hold
              · omega
            have hsound₁ : Sound img
                (r₁.mem.free + dirPages r₁.mem.page d + dirPages r₁.mem.page src) := by
              rwa [hcopying.moves.total, dirPages_congr hwords]
            obtain ⟨r', hloop⟩ := ih (r := r₁) (i := i + pgsize) (by unfold pgsize; omega)
              (by unfold pgsize; omega) habove₁
              (fun b hb => (mapped_congr hwords b).mpr (hpresent b hb)) hsound₁ (by omega)
            refine ⟨r', ?_⟩
            dsimp only
            rw [hmap, Option.bind_some]
            dsimp only
            rw [if_pos rfl, hloop]
    · refine ⟨r, ?_⟩
      rw [copyuvmFrom, dif_neg hi]

/-- With enough free pages, `copyuvm` does not return null. -/
theorem copyuvm_enough {n : ℕ} (hsz : sz ≤ kernbase) (hcount : sz ≤ n * 4096)
    (hpresent : ∀ b < sz, Mapped r.mem.page src b) (hsafe : Safe img r src)
    (hmany : 521 ≤ r.mem.free.length) (hfree : 513 + 2 * n ≤ r.mem.free.length) :
    ∃ d r', r.copyuvm img src sz = some (some d, r') := by
  obtain ⟨d, r₁, hsetup, hspans, hsafe₁, -⟩ := setupkvm_enough hsafe hmany
  obtain ⟨d', r₁', hsetup', hbyte, hmoves, hkernel⟩ | ⟨r₁', hsetup', -⟩ :=
    setupkvm_ram (hsafe.mono (Multiset.le_add_right _ _))
  · obtain ⟨hd, rfl⟩ := Prod.mk.inj (Option.some.inj (hsetup.symm.trans hsetup'))
    obtain rfl := Option.some.inj hd
    have hzero : Sound img (r.mem.free + 0 + dirPages r.mem.page src) := by rwa [add_zero]
    obtain ⟨hwords, -⟩ := kept_of_moves hzero hmoves (.of_eq hbyte)
    have hsound : Sound img (r₁.mem.free + dirPages r₁.mem.page d + dirPages r₁.mem.page src) := by
      rwa [hmoves.total, dirPages_congr hwords]
    have hcard := congrArg Multiset.card hmoves.total
    simp only [Multiset.card_add, Multiset.coe_card, add_zero] at hcard
    have hle := hkernel.card_le
    obtain ⟨r', hloop⟩ := @copyuvmFrom_enough _ r₁ d src sz 0 n hsz (Nat.zero_mod _) (by omega)
      (fun b hb _ => hkernel.not_mapped hb)
      (fun b hb => (mapped_congr hwords b).mpr (hpresent b hb)) hsound (by omega)
    refine ⟨d, r', ?_⟩
    rw [copyuvm, hsetup, Option.bind_some]
    exact hloop
  · rw [hsetup] at hsetup'
    simp at hsetup'

/-- The first process after boot forks, and its page is copied. -/
theorem copyuvm_forks_booted : ∃ (r : Ram) (src d : ℕ) (r₁ r' : Ram),
    r.copyuvm smallKernel src 4096 = some (some d, r') ∧ Unchanged r src r' ∧
      r.setupkvm smallKernel = some (some d, r₁) ∧ Forked r src 4096 r₁ d r' := by
  obtain ⟨r, src, hspans, hsafe, hfree⟩ := exists_booted
  have hkern : pgroundup 4096 ≤ kernbase := by decide
  have hpresent : ∀ b < pgroundup 4096, Mapped r.mem.page src b :=
    fun b hb => (hspans b (by omega)).mpr hb
  obtain ⟨d, r', hcopy⟩ := @copyuvm_enough _ r src 4096 1 (by decide) (by norm_num) hpresent hsafe
    (by omega) (by omega)
  obtain ⟨res, r₂, hcall, hunchanged, hresult⟩ := copyuvm_forks (by decide) hpresent hsafe
  rw [hcopy] at hcall
  obtain ⟨rfl, rfl⟩ := Prod.mk.inj (Option.some.inj hcall)
  obtain ⟨r₁, hsetup, hforked⟩ := hresult
  exact ⟨r, src, d, r₁, r', hcopy, hunchanged, hsetup, hforked⟩

end Xv6.Ram
