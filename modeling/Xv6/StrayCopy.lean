import Xv6.ForkMemory

/-!
# Owners of pages and null pointers

Pages keep their one owner in every run in which no `exec` follows a null pointer. One that does
breaks this: for an argument of more than 32 megabytes `copyout` comes to addresses behind the
physical memory, where the new page directory has no page tables. There `uva2ka` takes the word at
address 0 of the process for the entry, and the bytes of the argument go to the page that this word
names, up to the page tables of the device space, where `copyout` stops and `exec` returns -1.
-/

namespace Xv6

open PageStore

variable {img : KernelImage} {m m' : Mem} {d : ℕ}

/-! ## What `setupkvm` leaves absent -/

/-- `mappages` leaves alone the directory entries of other addresses. -/
theorem mappagesFrom_other {n a pa : ℕ} {perm : Perm} {ok : Bool} {i : Fin 1024}
    (hlow : kernbase ≤ a) (hhigh : a + n * 4096 < 2 ^ 32) (haligned : a % 4096 = 0)
    (hkernel : KernelOnly m.page d a) (hsound : Sound img (m.free + dirPages m.page d))
    (hi : ∀ b, a ≤ b → b ≤ a + n * 4096 → i ≠ pdx b)
    (hcall : mappagesFrom d perm n a pa m = some (ok, m')) : m'.page d i = m.page d i := by
  induction n generalizing a pa m with
  | zero =>
    obtain ⟨hfail, -⟩ | ⟨m₁, hentered, heq⟩ := mappagesFrom_step pa perm hsound (by omega)
      (hkernel.above a (by omega) le_rfl) 0
    · rw [hfail] at hcall
      rw [← (Prod.mk.inj (Option.some.inj hcall)).2]
    · rw [heq] at hcall
      rw [← (Prod.mk.inj (Option.some.inj hcall)).2]
      exact hentered.other i (hi a le_rfl (by omega))
  | succ n ih =>
    obtain ⟨hfail, -⟩ | ⟨m₁, hentered, heq⟩ := mappagesFrom_step pa perm hsound (by omega)
      (hkernel.above a (by omega) le_rfl) (n + 1)
    · rw [hfail] at hcall
      rw [← (Prod.mk.inj (Option.some.inj hcall)).2]
    · rw [heq] at hcall
      obtain ⟨hkernel₁, hmoves⟩ := hkernel.entered hentered hlow (by omega) haligned
      rw [← hentered.other i (hi a le_rfl (by omega))]
      unfold pgsize at hcall
      exact ih (by omega) (by omega) (by omega) hkernel₁ (by rwa [hmoves.total])
        (fun b hb hb' => hi b (by omega) (by omega)) hcall

/-- `setupkvm` sets the directory entries of the ranges in `kmap` only. -/
theorem setupkvmMap_other {ks : List Kmap} {top : ℕ} {d' : ℕ} {i : Fin 1024}
    (hlow : kernbase ≤ top) (hascending : Ascending top ks) (hkernel : KernelOnly m.page d top)
    (hsound : Sound img (m.free + dirPages m.page d))
    (hi : ∀ k ∈ ks, ∀ b, k.virt ≤ b →
      b < k.virt + wrapUint ((k.physEnd : ℤ) - k.physStart) → i ≠ pdx b)
    (hcall : setupkvmMap img d ks m = some (some d', m')) :
    d' = d ∧ m'.page d i = m.page d i := by
  induction ks generalizing top m with
  | nil =>
    obtain ⟨hd, rfl⟩ := Prod.mk.inj (Option.some.inj hcall)
    exact ⟨(Option.some.inj hd).symm, rfl⟩
  | cons k ks ih =>
    obtain ⟨hvirt, hhigh, hsize, haligned, hend, hrest⟩ := hascending
    obtain ⟨ok, m₁, hmap, hmoves₁, hkernel₁, -⟩ := mappages_kernel k.physStart
      k.perm (by omega) hhigh hsize haligned hend (hkernel.mono hvirt) hsound
    rw [setupkvmMap, hmap, Option.bind_some] at hcall
    have hsame : m₁.page d i = m.page d i := by
      have hrange := hi k (List.mem_cons_self ..)
      generalize wrapUint ((k.physEnd : ℤ) - k.physStart) = size at hhigh hsize hend hmap hrange
      have hstart : pgrounddown k.virt = k.virt := by unfold pgrounddown pgsize; omega
      have hcount : (pgrounddown (wrapUint ((k.virt : ℤ) + size - 1)) - k.virt) / pgsize =
          size / 4096 - 1 := by
        unfold pgrounddown wrapUint pgsize
        omega
      simp only [mappages, hstart, hcount] at hmap
      exact mappagesFrom_other (by omega) (by omega) haligned (hkernel.mono hvirt) hsound
        (fun b hb hb' => hrange b hb (by omega)) hmap
    dsimp only at hcall
    cases ok with
    | true =>
      rw [← hsame]
      exact ih (by omega) hrest hkernel₁ (by rwa [hmoves₁.total])
        (fun k hk => hi k (List.mem_cons_of_mem _ hk)) hcall
    | false =>
      rw [if_neg Bool.false_ne_true] at hcall
      obtain ⟨m₂, -, heq⟩ := Option.map_eq_some_iff.mp hcall
      simp at heq

/-- Between the physical memory and the device space there are no page tables. -/
theorem setupkvm_absent (hsound : Sound img m.free)
    (hcall : setupkvm img m = some (some d, m')) {i : Fin 1024} (hi : 568 ≤ i.val)
    (hi' : i.val < 1016) : ¬ (m'.page d i).p := by
  unfold setupkvm at hcall
  cases halloc : kalloc m with
  | mk f m₁ =>
    rw [halloc] at hcall
    cases f with
    | none => simp at hcall
    | some f =>
      have hphystop : ¬ p2v phystop > devspace := by decide
      dsimp only at hcall
      rw [if_neg hphystop] at hcall
      have htake := Moves.alloc halloc 0
      have hclear := Moves.write (m := m₁) (Multiset.mem_cons_self f 0) (fun _ => Pte.zero)
      have hmoves₁ : Moves m 0 (clearPage m₁ f) (f ::ₘ 0) := htake.trans hclear
      have hdir : (clearPage m₁ f).page f = fun _ => .zero := write_page_self _ _ _
      have hkernel : KernelOnly (clearPage m₁ f).page f kernbase := by
        refine ⟨fun i _ => ?_, fun b _ _ hmapped => ?_⟩
        · simp [hdir, Pte.zero]
        · have hpresent := hmapped.1
          simp [hdir, Pte.zero] at hpresent
      have hpages : dirPages (clearPage m₁ f).page f = f ::ₘ 0 := by
        have hslots : ∀ i, slotPages (clearPage m₁ f).page f i = 0 := fun i => by
          simp [slotPages, hdir, Pte.zero]
        rw [dirPages, gather_congr hslots, gather_zero]
      have houtside : ∀ k ∈ kmap img, ∀ b, k.virt ≤ b →
          b < k.virt + wrapUint ((k.physEnd : ℤ) - k.physStart) → i ≠ pdx b := by
        rintro k hk b hb hb' rfl
        have hlink := img.kernlink_lt_data
        have hend := img.data_le_end
        have hmax := img.end_le
        simp only [pdx, Fin.ofNat] at hi hi'
        simp only [kernlink, kernbase, extmem] at hlink hmax
        simp only [kmap, List.mem_cons, List.not_mem_nil, or_false] at hk
        obtain rfl | rfl | rfl | rfl := hk
        all_goals
          simp only [wrapUint, v2p, kernlink, kernbase, extmem, phystop, devspace] at hb hb'
          omega
      obtain ⟨rfl, hsame⟩ := setupkvmMap_other le_rfl (ascending_kmap img) hkernel
        (by rw [hpages, hmoves₁.total, add_zero]; exact hsound) houtside hcall
      rw [hsame, hdir]
      simp [Pte.zero]

namespace ProcessMemory

open GuardedRun

variable {s s' : State} {cur : Slot} {e : Pte}

/-! ## The bytes of the argument in a page -/

/-- A page full of the letter `A`, as entries. -/
def letters : Fin 1024 → Pte := fun _ => .ofWord 0x41414141

theorem patch_letters (ws : Fin 1024 → Pte) {p : List UInt8} (hlength : p.length = 4096)
    (hall : ∀ x ∈ p, x = 0x41) : patch ws 0 p = letters := by
  funext k
  have hbyte : ∀ i < 4, LittleEndian.copy
      (fun a => LittleEndian.digits (ws (wordIndex a)).word (a % 4)) 0 p.length
      (fun a => p.getD a 0) (4 * k + i) = 0x41 := by
    intro i hi
    have hk := k.isLt
    have hlt : 4 * k.val + i < p.length := by omega
    rw [LittleEndian.copy_of_mem (Nat.zero_le _) (by omega), Nat.sub_zero,
      List.getD_eq_getElem?_getD, List.getElem?_eq_getElem hlt, Option.getD_some]
    exact hall _ (List.getElem_mem _)
  have hword : LittleEndian.get (fun _ => (0x41 : UInt8)) 0 4 = 0x41414141 := by
    simp [LittleEndian.get]
  rw [patch, @LittleEndian.get_congr _ _ _ (fun _ => 0x41) 0 hbyte, hword, letters]

/-- The rest of a copy of the letter `A`, from a page boundary at which `n` pages are left: it stops
in page 0 at the latest. A page through which it goes on is then full of the letter. -/
theorem copyout_letters {c n : ℕ} {p : List UInt8} (hp : e.p) (hu : e.u) (haddr : p2v e.addr = c)
    (hc : c ≠ 0) (hn : n < 2 ^ 20) (helse : ∀ m : Mem, Elsewhere s cur m c)
    (hfresh : c ∉ dirPages m.page d) (hguard : ∃ e₀, pte m.page d 0 = some e₀ ∧ e₀.u = false)
    (hlong : n * 4096 < p.length) (hletters : ∀ x ∈ p.take (n * 4096), x = 0x41) :
    ∃ m', copyout s cur (some e) d ((2 ^ 32 - n * 4096) % 2 ^ 32) p m = some (false, m') ∧
      m'.free = m.free ∧ (∀ f, f ≠ c → m'.page f = m.page f) ∧
      (m'.page c = m.page c ∨ m'.page c = letters) ∧
      (0 < n → uva2ka m d (2 ^ 32 - n * 4096) = none → m'.page c = letters) := by
  induction n generalizing p m with
  | zero =>
    obtain ⟨e₀, hpte, hprivate⟩ := hguard
    have huva : uva2ka m d 0 = some none := by
      rw [uva2ka_eq, hpte, Option.map_some, if_neg fun h => by simp [hprivate] at h]
    refine ⟨m, ?_, rfl, fun _ _ => rfl, .inl rfl, fun h => absurd h (lt_irrefl 0)⟩
    rw [copyout, dif_pos (by omega)]
    have hva : pgrounddown ((2 ^ 32 - 0 * 4096) % 2 ^ 32) = 0 := by norm_num [pgrounddown]
    dsimp only
    rw [hva, huva]
    rfl
  | succ n ih =>
    rw [Nat.succ_mul] at hlong
    have hlong' : n * 4096 < (p.drop 4096).length := by
      rw [List.length_drop]
      exact Nat.lt_sub_of_add_lt hlong
    have hfirst : ∀ x ∈ p.take 4096, x = 0x41 := fun x hx => hletters x <|
      (List.take_prefix_take_left (by omega)).subset hx
    have hletters' : ∀ x ∈ (p.drop 4096).take (n * 4096), x = 0x41 := by
      intro x hx
      rw [List.take_drop, show 4096 + n * 4096 = (n + 1) * 4096 by omega] at hx
      exact hletters x (List.mem_of_mem_drop hx)
    have htaken : (p.take 4096).length = 4096 := by
      rw [List.length_take]
      omega
    have hpos : 0 < p.length := by omega
    have hva : (2 ^ 32 - (n + 1) * 4096) % 2 ^ 32 = 2 ^ 32 - (n + 1) * 4096 :=
      Nat.mod_eq_of_lt (by omega)
    have hround : pgrounddown (2 ^ 32 - (n + 1) * 4096) = 2 ^ 32 - (n + 1) * 4096 := by
      unfold pgrounddown pgsize
      omega
    have hcount : (pgsize - (2 ^ 32 - (n + 1) * 4096 - (2 ^ 32 - (n + 1) * 4096))) ⊓ p.length =
        4096 := by
      rw [Nat.sub_self, Nat.sub_zero]
      exact min_eq_left (by unfold pgsize; omega)
    have hnext : (2 ^ 32 - (n + 1) * 4096 + pgsize) % 2 ^ 32 = (2 ^ 32 - n * 4096) % 2 ^ 32 := by
      unfold pgsize
      omega
    rw [hva, copyout, dif_pos hpos]
    dsimp only
    rw [hround, hcount, hnext]
    cases huva : uva2ka m d (2 ^ 32 - (n + 1) * 4096) with
    | some pa0 =>
      dsimp only
      by_cases hnull : pa0.getD 0 = 0
      · rw [if_pos hnull]
        exact ⟨m, rfl, rfl, fun _ _ => rfl, .inl rfl, fun _ h => by cases h⟩
      · rw [if_neg hnull]
        obtain ⟨m', hcopy, hfree, hpages, hpage, -⟩ := ih (by omega) hfresh hguard hlong' hletters'
        exact ⟨m', hcopy, hfree, hpages, hpage, fun _ h => by cases h⟩
    | none =>
      have hbits : ¬ (!e.p || !e.u || decide (p2v e.addr = 0)) := by simp [hp, hu, haddr, hc]
      dsimp only
      rw [if_neg hbits, haddr, if_pos (helse m), Nat.sub_self,
        patch_letters _ htaken hfirst]
      have hsame : ∀ f ∈ dirPages m.page d, (m.write c letters).page f = m.page f := fun f hf =>
        write_page_of_ne fun heq => hfresh (heq ▸ hf)
      obtain ⟨m', hcopy, hfree, hpages, hpage, -⟩ := ih (m := m.write c letters) (by omega)
        (by rwa [dirPages_congr hsame]) (by rwa [pte_congr hsame]) hlong' hletters'
      rw [write_page_self] at hpage
      have hfull : m'.page c = letters := hpage.elim id id
      refine ⟨m', hcopy, hfree, fun f hf => ?_, .inr hfull, fun _ _ => hfull⟩
      rw [hpages f hf, write_page_of_ne hf]

/-! ## The call -/

/-- The word that names the page directory of the kernel, with `PTE_P`, `PTE_W` and `PTE_U`. -/
def strayWord (s : State) : Pte :=
  { Pte.zero with addr := v2p s.kpgdir, p := true, w := true, u := true }

/-- A program without segments. -/
def emptyFile : ExecFile := ⟨some ⟨0x464C457F, 0, 0⟩, fun _ => none, fun _ _ => 0⟩

/-- An argument of more than 32 megabytes. -/
def longArg : List UInt8 := List.replicate 0x2003FFF 0x41

theorem length_longArg : longArg.length = 0x2003FFF := List.length_replicate

/-- The page directory of a new image without segments, with its two pages for the stack: `exec`
comes so far if there is memory. The page tables that the long argument comes to are absent. -/
theorem exec_newStack (hsound : Sound img m.free) (hfree : 521 ≤ m.free.length) :
    ∃ d m₁ m₂ m₃, setupkvm img m = some (some d, m₁) ∧
      allocuvm img d 0 8192 m₁ = some (8192, m₂) ∧ clearpteu d 0 m₂ = some m₃ ∧
      Moves m 0 m₃ (dirPages m₃.page d) ∧ (∃ e, pte m₃.page d 0 = some e ∧ e.u = false) ∧
      uva2ka m₃ d (2 ^ 32 - 8194 * 4096) = none := by
  obtain ⟨d, m₁, hsetup, hmoves₁, hkernelOnly⟩ :=
    (setupkvm_spec hsound).resolve_right fun ⟨_, _, _, hsmall⟩ => by omega
  have hcard := congrArg Multiset.card hmoves₁.total
  simp only [Multiset.card_add, Multiset.coe_card, add_zero] at hcard
  have hle := hkernelOnly.card_le
  have hspans₁ : Spans m₁.page d 0 := fun b hb => by
    have hzero : pgroundup 0 = 0 := by decide
    rw [hzero]
    exact ⟨fun h => absurd h (hkernelOnly.not_mapped hb), by omega⟩
  have hsound₁ : Sound img (m₁.free + dirPages m₁.page d) := by rwa [hmoves₁.total, add_zero]
  obtain ⟨r₂, halloc, hsafe₂, hspans₂, -, hother, -⟩ := @Ram.allocuvm_enough img ⟨m₁, fun _ => 0⟩ d
    0 8192 2 hspans₁ hsound₁ (by norm_num) (by norm_num) (by norm_num [kernbase]) (by norm_num)
    (by dsimp only; omega)
  have halloc : allocuvm img d 0 8192 m₁ = some (8192, r₂.mem) := by
    have hmem := @Ram.allocuvm_mem img ⟨m₁, fun _ => 0⟩ d 0 8192
    rwa [halloc, eq_comm] at hmem
  obtain ⟨hmoves₂, -⟩ := allocuvm_spans (Nat.zero_le _) hspans₁ hsound₁ halloc
  have hmapped : Mapped r₂.mem.page d 0 := (hspans₂ 0 (by decide)).mpr (by decide)
  obtain ⟨m₃, hclear, hremaps⟩ := clearpteu_spec hmapped hsafe₂
  refine ⟨d, m₁, r₂.mem, m₃, hsetup, halloc, hclear, (hmoves₁.trans hmoves₂).trans hremaps.moves,
    ?_, ?_⟩
  · obtain ⟨e, hpte, -⟩ := mapped_iff_pte.mp ((hremaps.mapped_iff 0 (by norm_num)).mpr hmapped)
    exact ⟨e, hpte, Ram.clearpteu_pte hmapped hsafe₂ hclear (by norm_num) (by norm_num) rfl hpte⟩
  · have hdir : m₃.page d (1015 : Fin 1024) = m₁.page d 1015 := by
      rw [← hother 1015 (by decide)]
      rw [clearpteu, walkpgdir_false, if_pos hmapped.1] at hclear
      rw [← Option.some.inj hclear, setEntry_page_of_ne
        (pageTable_ne_self (Multiset.nodup_add.mp hsafe₂.nodup).2.1 hmapped.1).symm]
    have hslot : pdx (2 ^ 32 - 8194 * 4096) = 1015 := by decide
    rw [uva2ka_eq, pte, hslot, hdir, if_neg (setupkvm_absent hsound hsetup (by decide) (by decide))]
    rfl

/-- Pushing the long argument fails, and the page of the word at address 0 is full of its
bytes. -/
theorem pushArgs_longArg {c : ℕ} (hp : e.p) (hu : e.u) (haddr : p2v e.addr = c) (hc : c ≠ 0)
    (helse : ∀ m : Mem, Elsewhere s cur m c) (hfresh : c ∉ dirPages m.page d)
    (hguard : ∃ e₀, pte m.page d 0 = some e₀ ∧ e₀.u = false)
    (habsent : uva2ka m d (2 ^ 32 - 8194 * 4096) = none) :
    ∃ m', pushArgs s cur (some e) d [longArg] 0 8192 m = some (none, m') ∧ m'.free = m.free ∧
      (∀ f, f ≠ c → m'.page f = m.page f) ∧ m'.page c = letters := by
  have hsp : wrapUint (((8192 : ℕ) : ℤ) - (longArg.length + 1)) / 4 * 4 =
      (2 ^ 32 - 8194 * 4096) % 2 ^ 32 := by
    rw [length_longArg]
    unfold wrapUint
    omega
  have hletters : ∀ x ∈ (longArg ++ [0]).take (8194 * 4096), x = 0x41 := by
    intro x hx
    rw [List.take_append_of_le_length (by rw [length_longArg]; norm_num)] at hx
    exact List.eq_of_mem_replicate (List.mem_of_mem_take hx)
  have hlong : 8194 * 4096 < (longArg ++ [0]).length := by
    rw [List.length_append, length_longArg]
    norm_num
  obtain ⟨m', hcopy, hfree, hpages, -, hfull⟩ := @copyout_letters m d s cur e c 8194 _ hp hu haddr
    hc (by norm_num) helse hfresh hguard hlong hletters
  refine ⟨m', ?_, hfree, hpages, hfull (by norm_num) habsent⟩
  rw [pushArgs, if_neg (by norm_num [maxArg])]
  dsimp only
  rw [hsp, hcopy]
  rfl

/-- `exec` with the long argument fails, and the page directory of the kernel is full of its
bytes. -/
theorem exec_overwrites (path : String) (howned : Owned img s)
    (hlive : (s.table.proc cur).state ≠ .unused) (hfree : 521 ≤ s.mem.free.length) :
    ∃ m, exec img s cur (some (strayWord s)) path (some emptyFile) [longArg] =
        some (-1, { s with mem := m }) ∧ m.page s.kpgdir = letters := by
  have hsound : Sound img s.mem.free :=
    (howned.sound_dirPages hlive).mono (Multiset.le_add_right _ _)
  have hboth : Sound img (s.mem.free + dirPages s.mem.page s.kpgdir) := by
    refine (sound_allPages img).mono ?_
    rw [← howned.places_eq]
    unfold places inUse
    refine add_le_add_right ?_ _
    exact le_add_right (le_add_right (Multiset.le_add_left _ _))
  have hself : s.kpgdir ∈ dirPages s.mem.page s.kpgdir := self_mem_dirPages
  have hkernel : Allocatable img s.kpgdir :=
    hboth.allocatable _ (Multiset.mem_add.mpr (.inr hself))
  have hnull : s.kpgdir ≠ 0 := by
    have hbounds := hkernel.bounds
    omega
  obtain ⟨d, m₁, m₂, m₃, hsetup, halloc, hclear, hmoves, hguard, habsent⟩ :=
    exec_newStack hsound hfree
  have hparts : (m₃.free + dirPages m₃.page d : Multiset ℕ) = s.mem.free := by
    rw [hmoves.total, add_zero]
  have hnodup : (m₃.free + dirPages m₃.page d + {s.kpgdir} : Multiset ℕ).Nodup := by
    rw [hparts]
    exact Multiset.nodup_of_le (add_le_add_right (Multiset.singleton_le.mpr hself) _) hboth.nodup
  have hfresh : s.kpgdir ∉ dirPages m₃.page d := fun h =>
    Multiset.disjoint_left.mp (Multiset.nodup_add.mp hnodup).2.2 (Multiset.mem_add.mpr (.inr h))
      (Multiset.mem_singleton_self _)
  obtain ⟨m₄, hpush, hfree₄, hpages₄, hfull⟩ := @pushArgs_longArg m₃ d s cur (strayWord s) _ rfl rfl
    (p2v_v2p hkernel) hnull (fun m => .inl self_mem_dirPages) hfresh hguard habsent
  -- only the page of the kernel has changed, so the new image can be freed
  have hpages : dirPages m₄.page d = dirPages m₃.page d :=
    dirPages_congr fun f hf => hpages₄ f fun heq => hfresh (heq ▸ hf)
  rw [← hpages, ← hfree₄] at hnodup
  obtain ⟨m₅, hfreevm, hmoves₅⟩ := @freevm_spec img m₄ d (by rwa [hpages, hfree₄, hparts])
  refine ⟨m₅, ?_, ?_⟩
  · have hround : pgroundup 0 = 0 := by decide
    have htop : (0 + 2 * pgsize) % 2 ^ 32 = 8192 := by decide
    have hbase : 8192 - 2 * pgsize = 0 := by decide
    rw [exec]
    dsimp only [emptyFile]
    rw [if_neg (by decide), hsetup, Option.bind_some]
    dsimp only
    rw [execImage, show (0 : UInt16).toNat = 0 from rfl, execLoad, Option.bind_some]
    dsimp only
    rw [execStack, hround, htop, halloc, Option.bind_some]
    dsimp only
    rw [if_neg (by norm_num), hbase, hclear, Option.bind_some, hpush, Option.bind_some]
    dsimp only
    rw [Option.bind_some]
    dsimp only
    rw [hfreevm, Option.map_some]
  · rw [hmoves₅.page_of_mem_rest hnodup (Multiset.mem_singleton_self _)]
    exact hfull

/-! ## Runs -/

/-- As long as no `exec` follows a null pointer, every page has one owner in every state that a run
of `fork`, `exec`, `growproc`, `exit`, `wait`, `pipealloc` and `pipeclose` reaches. -/
theorem pages_one_owner {ram : ℕ → Fin 1024 → Pte} {others initcodeSize root : ℕ} {s₀ : State}
    {trace : List Action} (hboot : boot img ram others initcodeSize root = some s₀)
    (hrun : Run (step img) (fun _ => FollowsNoNull img) s₀ trace s) : OneOwner img s :=
  (owned_run hboot (fun _ _ _ h => h) hrun).oneOwner

/-- `fork` makes a child if there are a slot and enough memory for it. -/
theorem fork_enough {n : ℕ} {np : Slot} (hexact : Exact s) (howned : Owned img s)
    (hlive : (s.table.proc cur).state ≠ .unused) (hfind : s.table.allocprocFind = some np)
    (hsize : (s.table.proc cur).sz ≤ n * 4096) (hmany : 522 + 2 * n ≤ s.mem.free.length) :
    ∃ r s', fork img s cur = some (r, s') ∧ (s'.table.proc np).state = .runnable := by
  have hne : cur ≠ np := by
    rintro rfl
    exact hlive (unused_of_find hfind)
  have hsz := howned.sz_lt cur hlive
  have hsound := howned.sound_dirPages hlive
  unfold fork
  rw [hfind]
  dsimp only
  cases halloc : kalloc s.mem with
  | mk kstack m₁ =>
    cases kstack with
    | none =>
      have hnone := (alloc_eq_none halloc).2
      rw [hnone, List.length_nil] at hmany
      omega
    | some kstack =>
      have hpage := (alloc_eq_some halloc).2
      have hlength := congrArg List.length (alloc_eq_some halloc).1
      rw [List.length_cons] at hlength
      obtain ⟨-, hsound₁⟩ := sound_kalloc hsound halloc
      have hcur : ((s.table.allocprocEmbryo np).allocprocInit np kstack).proc cur =
          s.table.proc cur := by
        simp [PTable.allocprocInit, PTable.allocprocEmbryo, PTable.modify_proc, hne]
      obtain ⟨d, r', hcopy⟩ := @Ram.copyuvm_enough img ⟨m₁, fun _ => 0⟩
        (s.table.proc cur).pgdir (s.table.proc cur).sz n hsz.le hsize
        (fun b hb => by
          rw [hpage]
          refine (hexact cur hlive b (by omega)).mpr ?_
          rw [← lt_pgroundup_self_iff hsz]
          omega)
        (by rwa [← hpage] at hsound₁) (by dsimp only; omega) (by dsimp only; omega)
      have hcopy' : copyuvm img (s.table.proc cur).pgdir (s.table.proc cur).sz m₁ =
          some (some d, r'.mem) := by
        have hmem := @Ram.copyuvm_mem img ⟨m₁, fun _ => 0⟩ (s.table.proc cur).pgdir
          (s.table.proc cur).sz
        rwa [hcopy, eq_comm] at hmem
      dsimp only
      rw [hcur, hcopy', Option.bind_some]
      exact ⟨_, _, rfl, by simp [PTable.forkRunnable]⟩

/-- `growproc` succeeds if there is enough memory. -/
theorem growproc_enough {n k : ℕ} (hexact : Exact s) (howned : Owned img s)
    (hlive : (s.table.proc cur).state ≠ .unused) (hpos : 0 < n)
    (hnew : (s.table.proc cur).sz + n < kernbase) (hcount : n ≤ k * 4096)
    (hfree : 2 * k ≤ s.mem.free.length) :
    ∃ m, growproc img s cur n = some (0, { s with
        mem := m
        table := s.table.modify cur fun p => { p with sz := (s.table.proc cur).sz + n } }) ∧
      s.mem.free.length ≤ m.free.length + 2 * k := by
  have hsum : wrapUint ((s.table.proc cur).sz + (n : ℤ)) = (s.table.proc cur).sz + n := by
    unfold kernbase at hnew
    unfold wrapUint
    omega
  obtain ⟨r', halloc, -, -, hlength, -⟩ := @Ram.allocuvm_enough img ⟨s.mem, fun _ => 0⟩
    (s.table.proc cur).pgdir (s.table.proc cur).sz ((s.table.proc cur).sz + n) k
    (hexact cur hlive) (howned.sound_dirPages hlive) (by omega) (by omega) hnew (by omega) hfree
  have hcall : allocuvm img (s.table.proc cur).pgdir (s.table.proc cur).sz
      ((s.table.proc cur).sz + n) s.mem = some ((s.table.proc cur).sz + n, r'.mem) := by
    have hmem := @Ram.allocuvm_mem img ⟨s.mem, fun _ => 0⟩ (s.table.proc cur).pgdir
      (s.table.proc cur).sz ((s.table.proc cur).sz + n)
    rwa [halloc, eq_comm] at hmem
  refine ⟨r'.mem, ?_, hlength⟩
  unfold growproc
  dsimp only
  rw [if_pos (by omega), hsum, hcall, Option.map_some, if_neg (by omega)]


/-- The machine boots with one more CPU, the first process forks, and a pipe is made. -/
theorem pages_one_owner_fork : ∃ s₀ s np c, boot smallKernel (fun _ _ => .zero) 1 44 2 = some s₀ ∧
    Run (step smallKernel) (fun _ => FollowsNoNull smallKernel) s₀
      [.pipealloc true, .fork np, .dispatch np] s ∧ (s.table.proc c).state = .runnable ∧
    OneOwner smallKernel s := by
  obtain ⟨s₀, hboot⟩ := boot_eq_some (fun _ _ => .zero) 1 2
    (show pgroundup smallKernel.kend + 513 * 4096 < p2v (4 * 1024 * 1024) by decide)
    (show 44 < pgsize by decide)
  obtain ⟨np, s₁, hdispatch, hrunning, hsz, hfree, hunused⟩ := boot_dispatch hboot
  have hlive : (s₁.table.proc np).state ≠ .unused := by simp [hrunning]
  have hrun₁ : Run (step smallKernel) (fun _ => KeepsMemory smallKernel) s₀ [.dispatch np] s₁ :=
    .step .start ⟨trivial, fun _ _ h => by cases h⟩ hdispatch
  obtain ⟨hexact, howned⟩ := exact_run hboot hrun₁
  obtain ⟨c, hfind⟩ : ∃ c, s₁.table.allocprocFind = some c := by
    rw [← Option.isSome_iff_exists, Option.isSome_iff_ne_none]
    intro hnone
    obtain ⟨j, hj⟩ : ∃ j : Slot, j ≠ np := by
      by_cases hzero : np = 0
      · exact ⟨1, hzero ▸ by decide⟩
      · exact ⟨0, Ne.symm hzero⟩
    have htest := PTable.findSlot_eq_none.mp hnone j
    simp [hunused j hj] at htest
  obtain ⟨r, s₂, hfork, hrunnable⟩ := @fork_enough _ _ _ 1 c hexact howned hlive hfind
    (by omega) (by omega)
  have hstep₂ : step smallKernel s₁ (.fork np) = some s₂ :=
    step_eq_some.mpr ⟨hrunning, by simp [effect, hfork]⟩
  have hstep₃ : step smallKernel s₂ (.pipealloc true) = some (pipealloc s₂ true) :=
    step_eq_some.mpr ⟨trivial, rfl⟩
  have hrun : Run (step smallKernel) (fun _ => FollowsNoNull smallKernel) s₀
      [.pipealloc true, .fork np, .dispatch np] (pipealloc s₂ true) :=
    ((Run.start.step trivial hdispatch).step trivial hstep₂).step trivial hstep₃
  refine ⟨s₀, _, np, c, hboot, hrun, ?_, pages_one_owner hboot hrun⟩
  have htable : (pipealloc s₂ true).table = s₂.table := by
    unfold pipealloc
    cases kalloc s₂.mem with
    | mk f m => cases f <;> rfl
  rw [htable]
  exact hrunnable

/-- A first process that grows and then calls `exec` with the long argument and the word for the
page directory of the kernel at address 0: after that, pages do not have one owner. -/
theorem stray_copy_breaks_owners : ¬ ∀ (img : KernelImage) (ram : ℕ → Fin 1024 → Pte)
    (others initcodeSize root : ℕ) (s₀ s : State) (trace : List Action),
    boot img ram others initcodeSize root = some s₀ → Run (step img) free s₀ trace s →
      OneOwner img s := by
  intro hall
  obtain ⟨s₀, hboot⟩ := boot_eq_some (fun _ _ => .zero) 1 2
    (show pgroundup smallKernel.kend + 513 * 4096 < p2v (4 * 1024 * 1024) by decide)
    (show 44 < pgsize by decide)
  obtain ⟨np, s₁, hdispatch, hrunning, hsz, hfree, -⟩ := boot_dispatch hboot
  have hlive : (s₁.table.proc np).state ≠ .unused := by simp [hrunning]
  have hrun₁ : Run (step smallKernel) (fun _ => KeepsMemory smallKernel) s₀ [.dispatch np] s₁ :=
    .step .start ⟨trivial, fun _ _ h => by cases h⟩ hdispatch
  obtain ⟨hexact, howned⟩ := exact_run hboot hrun₁
  obtain ⟨m, hgrow, hfree'⟩ := growproc_enough (k := 8196) hexact howned hlive
    (show 0 < 0x2004000 by norm_num) (by rw [hsz]; norm_num [kernbase]) (by norm_num) (by omega)
  generalize hs₂ : ({ s₁ with mem := m, table := s₁.table.modify np _ } : State) = s₂ at hgrow
  have hstep₂ : step smallKernel s₁ (.growproc np (0x2004000 : ℕ)) = some s₂ := by
    refine step_eq_some.mpr ⟨⟨hrunning, by norm_num, by norm_num [intMax]⟩, ?_⟩
    rw [effect, hgrow, Option.map_some]
  have hkeeps : KeepsMemory smallKernel s₁ (.growproc np (0x2004000 : ℕ)) :=
    ⟨trivial, fun _ _ h hneg => by cases h; omega⟩
  have hrun₂ := hrun₁.step hkeeps hstep₂
  obtain ⟨hexact₂, howned₂⟩ := exact_run hboot hrun₂
  have hrunning₂ : (s₂.table.proc np).state = .running := by
    rw [← hs₂]
    simpa using hrunning
  have hlive₂ : (s₂.table.proc np).state ≠ .unused := by simp [hrunning₂]
  have hmany : 521 ≤ s₂.mem.free.length := by
    rw [← hs₂]
    dsimp only
    omega
  obtain ⟨m₃, hexec, hletters⟩ := exec_overwrites "init" howned₂ hlive₂ hmany
  have hmapped : Mapped s₂.mem.page (s₂.table.proc np).pgdir 0 := by
    refine (hexact₂ np hlive₂ 0 (by norm_num [kernbase])).mpr ?_
    rw [← lt_pgroundup_self_iff (howned₂.sz_lt np hlive₂), ← hs₂]
    simp
  have hstep₃ : step smallKernel s₂ (.exec np "init" (some emptyFile) [longArg] (strayWord s₂)) =
      some { s₂ with mem := m₃ } := by
    refine step_eq_some.mpr ⟨hrunning₂, ?_⟩
    rw [effect, zeroWord, if_pos hmapped, hexec, Option.map_some]
  have hrun : Run (step smallKernel) free s₀ [.exec np "init" (some emptyFile) [longArg]
      (strayWord s₂), .growproc np (0x2004000 : ℕ), .dispatch np] { s₂ with mem := m₃ } :=
    ((Run.start.step trivial hdispatch).step trivial hstep₂).step trivial hstep₃
  have howner := hall _ _ _ _ _ _ _ _ hboot hrun
  have hpresent : (m₃.page s₂.kpgdir 0).p := by
    rw [hletters]
    decide
  have hplace : 0xC1414000 ∈ places { s₂ with mem := m₃ } := by
    have hmem : pageTable m₃.page s₂.kpgdir 0 ∈ dirPages m₃.page s₂.kpgdir :=
      pageTable_mem_dirPages hpresent
    rw [pageTable, hletters, show p2v (letters 0).addr = 0xC1414000 by decide] at hmem
    unfold places inUse
    simp only [Multiset.mem_add]
    exact .inr (.inl (.inl (.inr hmem)))
  have hcount := howner.count_eq 0xC1414000
  rw [if_neg fun h => absurd h.2.2 (by decide), Multiset.count_eq_zero] at hcount
  exact hcount hplace

end ProcessMemory

end Xv6
