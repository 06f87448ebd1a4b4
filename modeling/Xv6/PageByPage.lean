import Xv6.GrowProcess
import Xv6.ExecMemory

/-!
# Visiting pages one by one

`deallocuvm` jumps over the rest of a region without a page table. Here its loop runs on 32-bit
addresses, with the words of `mmu.h`, and is compared with a loop that visits every page; what
the latter does to a page directory is then stated exactly.
-/

namespace Xv6

open PageStore

/-! ## Addresses as words -/

/-- `PGADDR`. -/
def pgaddr (d t o : UInt32) : UInt32 := d <<< 22 ||| t <<< 12 ||| o

/-- `PDX` of a word. -/
def pdxWord (va : UInt32) : UInt32 := va >>> 22 &&& 0x3FF

/-- `PGROUNDUP` of a word. -/
def pgroundupWord (sz : UInt32) : UInt32 := (sz + 4096 - 1) &&& ~~~(4096 - 1)

theorem pdxWord_toNat (a : UInt32) : (pdxWord a).toNat = a.toNat / 2 ^ 22 := by
  have hlt := a.toNat_lt
  rw [pdxWord, UInt32.toNat_and, UInt32.toNat_shiftRight]
  have hmask : (0x3FF : UInt32).toNat = 2 ^ 10 - 1 := by decide
  have hshift : (22 : UInt32).toNat % 32 = 22 := by decide
  rw [hmask, hshift, Nat.and_two_pow_sub_one_eq_mod, Nat.shiftRight_eq_div_pow]
  omega

/-- The loop lands on the next region after its increment. -/
theorem pgaddr_next {a : UInt32} (ha : a.toNat < kernbase) :
    (pgaddr (pdxWord a + 1) 0 0 - 4096 + 4096).toNat = (a.toNat / 2 ^ 22 + 1) * 2 ^ 22 := by
  unfold kernbase at ha
  have hpdx := pdxWord_toNat a
  have hshift : (22 : UInt32).toNat % 32 = 22 := by decide
  have hone : (1 : UInt32).toNat = 1 := by decide
  have hsub : pgaddr (pdxWord a + 1) 0 0 - 4096 + 4096 = (pdxWord a + 1) <<< (22 : UInt32) := by
    rw [sub_add_cancel, pgaddr]
    simp
  rw [hsub, UInt32.toNat_shiftLeft, hshift, UInt32.toNat_add, hpdx, hone, Nat.shiftLeft_eq]
  omega

/-- Clearing the low bits. -/
theorem and_not_mask {x : ℕ} (hx : x < 2 ^ 32) :
    x &&& (2 ^ 32 - 2 ^ 12) = x / 4096 * 4096 := by
  have hmask : 2 ^ 32 - 2 ^ 12 = (2 ^ 20 - 1) * 2 ^ 12 := by norm_num
  have hpow : 4096 = 2 ^ 12 := by norm_num
  apply Nat.eq_of_testBit_eq
  intro i
  rw [hmask, hpow, Nat.testBit_and, Nat.testBit_mul_two_pow, Nat.testBit_mul_two_pow,
    Nat.testBit_two_pow_sub_one, Nat.testBit_div_two_pow]
  by_cases hlow : 12 ≤ i
  · by_cases hhigh : i < 32
    · simp [hlow, show i - 12 < 20 by omega]
    · have hbit : x.testBit i = false :=
        Nat.testBit_lt_two_pow (hx.trans_le (Nat.pow_le_pow_right (by omega) (by omega)))
      simp [hlow, hbit]
  · simp [hlow]

theorem pgroundupWord_toNat (sz : UInt32) : (pgroundupWord sz).toNat = pgroundup sz.toNat := by
  have hadd : (sz + 4096 - 1).toNat = (sz.toNat + 4095) % 2 ^ 32 := by
    have h : sz + 4096 - 1 = sz + 4095 := by
      rw [sub_eq_iff_eq_add, add_assoc]
      rfl
    rw [h, UInt32.toNat_add]
    rfl
  have hmask : (~~~(4096 - 1 : UInt32)).toNat = 2 ^ 32 - 2 ^ 12 := by decide
  rw [pgroundupWord, UInt32.toNat_and, hmask, hadd, and_not_mask (Nat.mod_lt _ (by norm_num))]
  rfl

/-! ## The loop of `deallocuvm` on words -/

namespace Ram

/-- The body of the loop of `deallocuvm`: the address before the increment. -/
def deallocuvmBody (img : KernelImage) (pgdir : ℕ) (a : UInt32) (r : Ram) :
    Option (UInt32 × Ram) :=
  match walkpgdir r.mem pgdir a.toNat false with
  | (none, _) => some (pgaddr (pdxWord a + 1) 0 0 - 4096, r)
  | (some (pgtab, i), _) =>
      let pte := r.mem.page pgtab i
      if pte.p then
        if pte.addr = 0 then none
        else
          (r.kfree img (p2v pte.addr)).map fun r =>
            (a, { r with mem := setEntry r.mem pgtab i .zero })
      else some (a, r)

/-- The loop of `deallocuvm`, with a bound on its iterations. The outer `none` is a loop that
has not ended. -/
def deallocuvmLoop (img : KernelImage) (pgdir : ℕ) (oldsz : UInt32) :
    ℕ → UInt32 → Ram → Option (Option Ram)
  | 0, _, _ => none
  | fuel + 1, a, r =>
      if a < oldsz then
        match deallocuvmBody img pgdir a r with
        | none => some none
        | some (a, r) => deallocuvmLoop img pgdir oldsz fuel (a + 4096) r
      else some (some r)

/-- `deallocuvm` on words. -/
def deallocuvmWords (img : KernelImage) (pgdir : ℕ) (oldsz newsz : UInt32) (fuel : ℕ) (r : Ram) :
    Option (Option (UInt32 × Ram)) :=
  if newsz ≥ oldsz then some (some (oldsz, r))
  else
    (deallocuvmLoop img pgdir oldsz fuel (pgroundupWord newsz) r).map
      fun res => res.map fun r => (newsz, r)

variable {img : KernelImage} {d : ℕ}

/-- The loop ends after at most one iteration a page, and its addresses never wrap. -/
theorem deallocuvmLoop_eq {oldsz a : UInt32} (hold : oldsz.toNat ≤ kernbase)
    (haligned : a.toNat % 4096 = 0) {fuel : ℕ} (hfuel : oldsz.toNat ≤ a.toNat + 4096 * fuel)
    (r : Ram) :
    deallocuvmLoop img d oldsz (fuel + 1) a r =
      some (r.deallocuvmFrom img d oldsz.toNat a.toNat) := by
  induction fuel generalizing a r with
  | zero =>
    rw [deallocuvmLoop, deallocuvmFrom, if_neg, dif_neg]
    · omega
    · rw [UInt32.lt_iff_toNat_lt]
      omega
  | succ fuel ih =>
    rw [deallocuvmLoop, deallocuvmFrom]
    by_cases ha : a.toNat < oldsz.toNat
    · have hnext : (a + 4096).toNat = a.toNat + pgsize := by
        rw [UInt32.toNat_add]
        unfold kernbase at hold
        have hsize : (4096 : UInt32).toNat = 4096 := by decide
        unfold pgsize
        omega
      have hstep : ∀ r, deallocuvmLoop img d oldsz (fuel + 1) (a + 4096) r =
          some (r.deallocuvmFrom img d oldsz.toNat (a.toNat + pgsize)) := by
        intro r
        rw [← hnext]
        apply ih <;> rw [hnext] <;> unfold pgsize <;> omega
      rw [if_pos (UInt32.lt_iff_toNat_lt.mpr ha), dif_pos ha, deallocuvmBody, walkpgdir_false]
      by_cases hp : (r.mem.page d (pdx a.toNat)).p
      · rw [if_pos hp]
        dsimp only
        split_ifs with hpte haddr
        · rfl
        · cases r.kfree img (p2v (r.mem.page (pageTable r.mem.page d (pdx a.toNat))
            (ptx a.toNat)).addr) with
          | none => rfl
          | some r₁ =>
            rw [Option.map_some, Option.bind_some]
            dsimp only
            rw [hstep]
        · dsimp only
          rw [hstep]
      · rw [if_neg hp]
        dsimp only
        have hskip := pgaddr_next (a := a) (by omega)
        rw [ih, hskip]
        · rw [hskip]
          omega
        · rw [hskip]
          omega
    · rw [if_neg (by rwa [UInt32.lt_iff_toNat_lt]), dif_neg ha]

/-! ## Every page -/

/-- What the loop of `deallocuvm` does to the page of `a`, without the jump. -/
def visitPage (img : KernelImage) (pgdir a : ℕ) (r : Ram) : Option Ram :=
  match walkpgdir r.mem pgdir a false with
  | (none, _) => some r
  | (some (pgtab, i), _) =>
      let pte := r.mem.page pgtab i
      if pte.p then
        if pte.addr = 0 then none
        else
          (r.kfree img (p2v pte.addr)).map fun r =>
            { r with mem := setEntry r.mem pgtab i .zero }
      else some r

/-- Visit the pages of a list. -/
def visitPages (img : KernelImage) (pgdir : ℕ) : List ℕ → Ram → Option Ram
  | [], r => some r
  | a :: as, r => (r.visitPage img pgdir a).bind (visitPages img pgdir as)

/-- The pages from `a` up to the last one that starts below `oldsz`. -/
def pagesFrom (a oldsz : ℕ) : List ℕ := List.range' a ((oldsz - a + 4095) / 4096) 4096

theorem mem_pagesFrom {a oldsz b : ℕ} :
    b ∈ pagesFrom a oldsz ↔ a ≤ b ∧ b < oldsz ∧ (b - a) % 4096 = 0 := by
  rw [pagesFrom, List.mem_range']
  constructor
  · rintro ⟨i, hi, rfl⟩
    omega
  · rintro ⟨hle, hlt, hmod⟩
    exact ⟨(b - a) / 4096, by omega, by omega⟩

theorem nodup_pagesFrom (a oldsz : ℕ) : (pagesFrom a oldsz).Nodup :=
  List.nodup_range' _ (by norm_num)

theorem pagesFrom_nil {a oldsz : ℕ} (ha : oldsz ≤ a) : pagesFrom a oldsz = [] := by
  have h : (oldsz - a + 4095) / 4096 = 0 := by omega
  rw [pagesFrom, h, List.range'_zero]

theorem pagesFrom_cons {a oldsz : ℕ} (ha : a < oldsz) :
    pagesFrom a oldsz = a :: pagesFrom (a + pgsize) oldsz := by
  have h : (oldsz - a + 4095) / 4096 = (oldsz - (a + 4096) + 4095) / 4096 + 1 := by omega
  rw [pagesFrom, h, List.range'_succ]
  rfl

/-- The pages up to the end of the region of `a`, and the pages behind it. -/
theorem pagesFrom_region {a : ℕ} (haligned : a % 4096 = 0) (oldsz : ℕ) :
    ∃ k, pagesFrom a oldsz = List.range' a k 4096 ++
        pagesFrom ((a / 2 ^ 22 + 1) * 2 ^ 22) oldsz ∧
      ∀ b ∈ List.range' a k 4096, b / 2 ^ 22 = a / 2 ^ 22 := by
  by_cases hend : oldsz ≤ (a / 2 ^ 22 + 1) * 2 ^ 22
  · refine ⟨(oldsz - a + 4095) / 4096, ?_, fun b hb => ?_⟩
    · rw [pagesFrom_nil hend, List.append_nil, pagesFrom]
    · obtain ⟨i, hi, rfl⟩ := List.mem_range'.mp hb
      omega
  · refine ⟨((a / 2 ^ 22 + 1) * 2 ^ 22 - a) / 4096, ?_, fun b hb => ?_⟩
    · have hstart : (a / 2 ^ 22 + 1) * 2 ^ 22 =
          a + 4096 * (((a / 2 ^ 22 + 1) * 2 ^ 22 - a) / 4096) := by omega
      have hcount : (oldsz - a + 4095) / 4096 = ((a / 2 ^ 22 + 1) * 2 ^ 22 - a) / 4096 +
          (oldsz - (a / 2 ^ 22 + 1) * 2 ^ 22 + 4095) / 4096 := by omega
      rw [pagesFrom, pagesFrom, hcount, ← List.range'_append, ← hstart]
    · obtain ⟨i, hi, rfl⟩ := List.mem_range'.mp hb
      omega

/-- Pages without a page table are passed over. -/
theorem visitPages_absent {as : List ℕ} {r : Ram}
    (habsent : ∀ a ∈ as, ¬ (r.mem.page d (pdx a)).p) (bs : List ℕ) :
    visitPages img d (as ++ bs) r = visitPages img d bs r := by
  induction as with
  | nil => rfl
  | cons a as ih =>
    rw [List.cons_append, visitPages, visitPage, walkpgdir_false,
      if_neg (habsent a (List.mem_cons_self ..))]
    exact ih fun b hb => habsent b (List.mem_cons_of_mem _ hb)

/-- The jump of `deallocuvm` loses nothing. -/
theorem deallocuvmFrom_eq_visitPages {oldsz a : ℕ} (haligned : a % 4096 = 0) (r : Ram) :
    r.deallocuvmFrom img d oldsz a = visitPages img d (pagesFrom a oldsz) r := by
  -- the induction is on the bytes that remain
  induction hn : oldsz - a using Nat.strong_induction_on generalizing a r with
  | _ n ih =>
    subst hn
    rw [deallocuvmFrom]
    by_cases ha : a < oldsz
    · have hstep : ∀ r : Ram, r.deallocuvmFrom img d oldsz (a + pgsize) =
          visitPages img d (pagesFrom (a + pgsize) oldsz) r := fun r =>
        ih _ (by unfold pgsize; omega) (by unfold pgsize; omega) r rfl
      rw [dif_pos ha, walkpgdir_false]
      by_cases hp : (r.mem.page d (pdx a)).p
      · rw [if_pos hp, pagesFrom_cons ha, visitPages, visitPage, walkpgdir_false, if_pos hp]
        dsimp only
        split_ifs
        · rfl
        · cases r.kfree img (p2v (r.mem.page (pageTable r.mem.page d (pdx a)) (ptx a)).addr) with
          | none => rw [Option.map_none, Option.bind_none, Option.bind_none]
          | some r₁ => rw [Option.map_some, Option.bind_some, Option.bind_some, hstep]
        · rw [hstep, Option.bind_some]
      · rw [if_neg hp]
        dsimp only
        rw [ih _ (by omega) (by omega) r rfl]
        obtain ⟨k, hk, hregion⟩ := pagesFrom_region haligned oldsz
        rw [hk, visitPages_absent]
        intro b hb
        rwa [show pdx b = pdx a by rw [pdx, pdx, hregion b hb]]
    · rw [dif_neg ha, pagesFrom_nil (by omega)]
      rfl

/-- The frame of the page of `a`, if it is present. -/
def frameAt (w : ℕ → Fin 1024 → Pte) (d a : ℕ) : Option ℕ :=
  (pte w d a).bind fun e => if e.p then some (p2v e.addr) else none

/-- The frames of the present pages of a list. -/
def frames (r : Ram) (d : ℕ) (as : List ℕ) : List ℕ := as.filterMap (frameAt r.mem.page d)

/-- The pages of `as` are freed and their entries cleared, and nothing else is touched. -/
structure Visited (r : Ram) (d : ℕ) (as : List ℕ) (r' : Ram) : Prop where
  /-- The frames go to the free list, in the order of the pages. -/
  free : r'.mem.free = (r.frames d as).reverse ++ r.mem.free
  /-- The other pages of the address space stay in it. -/
  pages : (r.frames d as : Multiset ℕ) + dirPages r'.mem.page d = dirPages r.mem.page d
  /-- The entries of present pages of the list are cleared, and all others stay. -/
  entry : ∀ va < 2 ^ 32, pte r'.mem.page d va =
    if ∃ a ∈ as, va / 4096 = a / 4096 then
      (pte r.mem.page d va).map fun e => if e.p then .zero else e
    else pte r.mem.page d va
  /-- The directory stays. -/
  dir : r'.mem.page d = r.mem.page d
  /-- Pages that are neither freed nor page tables keep their words. -/
  word : ∀ f ∉ r.frames d as, (∀ i, (r.mem.page d i).p → f ≠ pageTable r.mem.page d i) →
    r'.mem.page f = r.mem.page f
  /-- Pages that are not freed keep their bytes. -/
  byte : ∀ b, (∀ f ∈ r.frames d as, ¬ (f ≤ b ∧ b < f + pgsize)) → r'.byte b = r.byte b

theorem frameAt_of_not_mapped {w : ℕ → Fin 1024 → Pte} {a : ℕ} (hmapped : ¬ Mapped w d a) :
    frameAt w d a = none := by
  unfold frameAt pte
  split_ifs with hp
  · rw [Option.bind_some, if_neg fun h => hmapped ⟨hp, h⟩]
  · rfl

theorem frameAt_of_mapped {w : ℕ → Fin 1024 → Pte} {a : ℕ} (hmapped : Mapped w d a) :
    frameAt w d a = some (p2v (w (pageTable w d (pdx a)) (ptx a)).addr) := by
  rw [frameAt, pte, if_pos hmapped.1, Option.bind_some, if_pos hmapped.2]

/-- A page that is not present is passed over. -/
theorem Visited.of_not_mapped {r : Ram} {a : ℕ} (ha : a < kernbase)
    (hmapped : ¬ Mapped r.mem.page d a) : Visited r d [a] r := by
  unfold kernbase at ha
  have hframes : r.frames d [a] = [] := by
    rw [frames, List.filterMap_cons, frameAt_of_not_mapped hmapped]
    rfl
  refine ⟨by rw [hframes]; rfl, by rw [hframes]; exact zero_add _, fun va hva => ?_, rfl,
    fun _ _ _ => rfl, fun _ _ => rfl⟩
  split_ifs with hpage
  · obtain ⟨b, hb, hpage⟩ := hpage
    obtain rfl := List.mem_singleton.mp hb
    rw [pte_congr_page (by omega) hva hpage]
    cases he : pte r.mem.page d b with
    | none => rfl
    | some e => rw [Option.map_some, if_neg fun h => hmapped (mapped_iff_pte.mpr ⟨e, he, h⟩)]
  · rfl

/-- Visiting one page. -/
theorem visitPage_spec {r : Ram} {a : ℕ} (ha : a < kernbase)
    (hsound : Sound img (dirPages r.mem.page d)) :
    ∃ r', r.visitPage img d a = some r' ∧ Visited r d [a] r' := by
  by_cases hmapped : Mapped r.mem.page d a
  · -- the free list plays no role: look at the pages alone
    set m : Mem := { r.mem with free := [] } with hm
    have hsound₀ : Sound img (m.free + dirPages m.page d) := by
      rw [hm]
      exact (zero_add (dirPages r.mem.page d)).symm ▸ hsound
    obtain ⟨m₁, hfree₀, haddr, hdrop⟩ := dropped hsound₀ ha hmapped
    have hentry₀ := fun b hb hne => dropped_pte (b := b) hsound₀ ha hb hmapped hfree₀ hne
    have hframe := frameAt_of_mapped hmapped
    have hmem := mem_slotPages_of_mapped ha hmapped
    have hne := page_ne_pageTable ha hsound.nodup hmapped
    set t := pageTable r.mem.page d (pdx a) with ht
    set f := p2v (r.mem.page t (ptx a)).addr with hf
    have hok : Allocatable img f := hsound.allocatable f (Multiset.mem_of_le hmem.2 hmem.1)
    have hm₁ : m.release (fun _ => Pte.junk) f = m₁ := by
      have h := kfree_eq hok m
      rw [hfree₀] at h
      exact (Option.some.inj h).symm
    have hframes : r.frames d [a] = [f] := by
      rw [frames, List.filterMap_cons, hframe]
      rfl
    set r' : Ram :=
      { r.fill f 1 with mem := setEntry (r.mem.release (fun _ => Pte.junk) f) t (ptx a) .zero }
      with hr'
    have hpage : r'.mem.page = (setEntry m₁ t (ptx a) .zero).page := by
      rw [← hm₁]
      rfl
    refine ⟨r', ?_, ?_, ?_, fun va hva => ?_, ?_, fun g hg htable => ?_, fun b hb => ?_⟩
    · rw [visitPage, walkpgdir_false, if_pos hmapped.1]
      dsimp only
      rw [if_pos hmapped.2, if_neg haddr, kfree, kfree_eq hok, Option.map_some, Option.map_some]
    · rw [hframes]
      rfl
    · have htotal := hdrop.moves.total
      rw [← hm₁] at htotal hpage
      rw [hframes, hpage]
      exact htotal.trans (zero_add _)
    · rw [hpage]
      by_cases hne : va / 4096 = a / 4096
      · rw [if_pos ⟨a, List.mem_singleton_self a, hne⟩]
        have ha' : a < 2 ^ 32 := by
          unfold kernbase at ha
          omega
        have htable : pageTable (setEntry m₁ t (ptx a) .zero).page d (pdx a) = t :=
          pageTable_congr hdrop.dir
        rw [pte_congr_page ha' hva hne, pte_congr_page ha' hva hne, pte, pte, htable, ← ht,
          hdrop.dir, if_pos hmapped.1, if_pos hmapped.1, setEntry_page_self, Option.map_some,
          if_pos hmapped.2]
        dsimp only
        rw [if_pos rfl]
      · rw [if_neg]
        · exact hentry₀ va hva hne
        · rintro ⟨b, hb, hpage⟩
          exact hne (List.mem_singleton.mp hb ▸ hpage)
    · rw [hpage]
      exact hdrop.dir
    · rw [hframes, List.mem_singleton] at hg
      rw [hr']
      dsimp only
      rw [setEntry_page_of_ne (htable _ hmapped.1)]
      exact write_page_of_ne hg
    · rw [hframes] at hb
      rw [hr']
      dsimp only [fill]
      rw [if_neg (hb f (List.mem_singleton_self f))]
  · refine ⟨r, ?_, .of_not_mapped ha hmapped⟩
    rw [visitPage, walkpgdir_false]
    by_cases hp : (r.mem.page d (pdx a)).p
    · rw [if_pos hp]
      dsimp only
      rw [if_neg fun h => hmapped ⟨hp, h⟩]
    · rw [if_neg hp]

theorem frames_cons (r : Ram) (a : ℕ) (as : List ℕ) :
    r.frames d (a :: as) = r.frames d [a] ++ r.frames d as := by
  rw [frames, frames, frames, ← List.filterMap_append]
  rfl

/-- Another page after one visit: what it maps has not changed. -/
theorem Visited.frames_eq {r r' : Ram} {a : ℕ} {as : List ℕ} (hvisited : Visited r d [a] r')
    (hlow : ∀ b ∈ as, b < 2 ^ 32) (hne : ∀ b ∈ as, a / 4096 ≠ b / 4096) :
    r'.frames d as = r.frames d as := by
  apply List.filterMap_congr
  intro b hb
  rw [frameAt, frameAt, hvisited.entry b (hlow b hb), if_neg]
  rintro ⟨c, hc, hpage⟩
  obtain rfl := List.mem_singleton.mp hc
  exact hne b hb hpage.symm

/-- Visiting a page and then others. -/
theorem Visited.trans {r r' r'' : Ram} {a : ℕ} {as : List ℕ} (hfirst : Visited r d [a] r')
    (hrest : Visited r' d as r'') (hlow : ∀ b ∈ as, b < 2 ^ 32)
    (hne : ∀ b ∈ as, a / 4096 ≠ b / 4096) : Visited r d (a :: as) r'' := by
  have hframes := hfirst.frames_eq hlow hne
  refine ⟨?_, ?_, fun va hva => ?_, hrest.dir.trans hfirst.dir, fun f hf htable => ?_,
    fun b hb => ?_⟩
  · rw [hrest.free, hfirst.free, hframes, frames_cons r a as, List.reverse_append,
      List.append_assoc]
  · rw [frames_cons r a as, ← Multiset.coe_add, add_assoc, ← hframes, hrest.pages, hfirst.pages]
  · rw [hrest.entry va hva, hfirst.entry va hva]
    by_cases hpage : va / 4096 = a / 4096
    · have hother : ¬ ∃ b ∈ as, va / 4096 = b / 4096 := by
        rintro ⟨b, hb, heq⟩
        exact hne b hb (hpage.symm.trans heq)
      rw [if_neg hother, if_pos ⟨a, List.mem_singleton_self a, hpage⟩,
        if_pos ⟨a, List.mem_cons_self .., hpage⟩]
    · have hself : ¬ ∃ b ∈ [a], va / 4096 = b / 4096 := by
        rintro ⟨b, hb, heq⟩
        exact hpage (List.mem_singleton.mp hb ▸ heq)
      rw [if_neg hself]
      by_cases hother : ∃ b ∈ as, va / 4096 = b / 4096
      · obtain ⟨b, hb, heq⟩ := hother
        rw [if_pos ⟨b, hb, heq⟩, if_pos ⟨b, List.mem_cons_of_mem _ hb, heq⟩]
      · rw [if_neg hother, if_neg]
        rintro ⟨b, hb, heq⟩
        obtain rfl | hb := List.mem_cons.mp hb
        · exact hpage heq
        · exact hother ⟨b, hb, heq⟩
  · rw [frames_cons r a as, ← hframes, List.mem_append, not_or] at hf
    rw [hrest.word f hf.2, hfirst.word f hf.1 htable]
    intro i hp
    rw [hfirst.dir] at hp
    rw [pageTable_congr hfirst.dir]
    exact htable i hp
  · rw [frames_cons r a as, ← hframes] at hb
    rw [hrest.byte b fun f hf => hb f (List.mem_append_right _ hf),
      hfirst.byte b fun f hf => hb f (List.mem_append_left _ hf)]

/-- Visiting pages that differ. -/
theorem visitPages_spec {as : List ℕ} {r : Ram} (hlow : ∀ a ∈ as, a < kernbase)
    (hpages : as.Pairwise fun a b => a / 4096 ≠ b / 4096)
    (hsound : Sound img (dirPages r.mem.page d)) :
    ∃ r', visitPages img d as r = some r' ∧ Visited r d as r' := by
  induction as generalizing r with
  | nil =>
    refine ⟨r, rfl, rfl, zero_add _, fun va _ => ?_, rfl, fun _ _ _ => rfl, fun _ _ => rfl⟩
    rw [if_neg]
    rintro ⟨a, ha, -⟩
    exact List.not_mem_nil ha
  | cons a as ih =>
    obtain ⟨hne, hrest⟩ := List.pairwise_cons.mp hpages
    have hlow' : ∀ b ∈ as, b < kernbase := fun b hb => hlow b (List.mem_cons_of_mem _ hb)
    obtain ⟨r₁, hvisit, hvisited⟩ := visitPage_spec (hlow a (List.mem_cons_self ..)) hsound
    have hsound₁ : Sound img (dirPages r₁.mem.page d) := by
      apply hsound.mono
      rw [← hvisited.pages]
      exact Multiset.le_add_left _ _
    obtain ⟨r₂, hvisits, hvisited₂⟩ := ih hlow' hrest hsound₁
    refine ⟨r₂, ?_, hvisited.trans hvisited₂ (fun b hb => ?_) hne⟩
    · rw [visitPages, hvisit, Option.bind_some, hvisits]
    · have h := hlow' b hb
      unfold kernbase at h
      omega

theorem pagesFrom_pairwise {a : ℕ} (haligned : a % 4096 = 0) (oldsz : ℕ) :
    (pagesFrom a oldsz).Pairwise fun b c => b / 4096 ≠ c / 4096 := by
  apply List.Pairwise.imp_of_mem _ (nodup_pagesFrom a oldsz)
  intro b c hb hc hne
  have hb' := mem_pagesFrom.mp hb
  have hc' := mem_pagesFrom.mp hc
  omega

/-! ## `freevm` after it -/

/-- Memory with more pages at the end of the free list. -/
def append (m : Mem) (l : List ℕ) : Mem := { m with free := m.free ++ l }

theorem kfree_append (m : Mem) (l : List ℕ) (v : ℕ) :
    Xv6.kfree img (append m l) v = (Xv6.kfree img m v).map fun m => append m l := by
  unfold Xv6.kfree
  split_ifs <;> rfl

theorem deallocuvmFrom_append (m : Mem) (l : List ℕ) (oldsz a : ℕ) :
    Xv6.deallocuvmFrom img d oldsz a (append m l) =
      (Xv6.deallocuvmFrom img d oldsz a m).map fun m => append m l := by
  induction hn : oldsz - a using Nat.strong_induction_on generalizing a m with
  | _ n ih =>
    subst hn
    rw [Xv6.deallocuvmFrom, Xv6.deallocuvmFrom]
    by_cases ha : a < oldsz
    · have hstep : ∀ m : Mem, Xv6.deallocuvmFrom img d oldsz (a + pgsize) (append m l) =
          (Xv6.deallocuvmFrom img d oldsz (a + pgsize) m).map fun m => append m l := fun m =>
        ih _ (by unfold pgsize; omega) _ _ rfl
      have hpage : (append m l).page = m.page := rfl
      rw [dif_pos ha, dif_pos ha, walkpgdir_false, walkpgdir_false, hpage]
      by_cases hp : (m.page d (pdx a)).p
      · rw [if_pos hp, if_pos hp]
        dsimp only
        rw [hpage]
        split_ifs
        · rfl
        · rw [kfree_append]
          cases Xv6.kfree img m (p2v (m.page (pageTable m.page d (pdx a)) (ptx a)).addr) with
          | none => rw [Option.map_none, Option.bind_none, Option.map_none]
          | some m₁ =>
            rw [Option.map_some, Option.bind_some, Option.bind_some, ← hstep]
            rfl
        · rw [hstep]
      · rw [if_neg hp, if_neg hp]
        dsimp only
        rw [ih _ (by omega) _ _ rfl]
    · rw [dif_neg ha, dif_neg ha, Option.map_some]

theorem freevmTables_append (m : Mem) (l : List ℕ) (is : List (Fin 1024)) :
    Xv6.freevmTables img d is (append m l) =
      (Xv6.freevmTables img d is m).map fun m => append m l := by
  induction is generalizing m with
  | nil => rfl
  | cons i is ih =>
    rw [Xv6.freevmTables, Xv6.freevmTables]
    have hpage : (append m l).page = m.page := rfl
    rw [hpage, kfree_append]
    split_ifs
    · cases Xv6.kfree img m (p2v (m.page d i).addr) with
      | none => rfl
      | some m₁ => exact ih m₁
    · exact ih m

/-- `freevm` does not look at the free list. -/
theorem freevm_append (m : Mem) (l : List ℕ) :
    Xv6.freevm img d (append m l) = (Xv6.freevm img d m).map fun m => append m l := by
  have hpos : ¬ 0 ≥ kernbase := by
    unfold kernbase
    omega
  rw [Xv6.freevm, Xv6.freevm, Xv6.deallocuvm, Xv6.deallocuvm, if_neg hpos, if_neg hpos,
    deallocuvmFrom_append]
  obtain _ | m₁ := Xv6.deallocuvmFrom img d kernbase (pgroundup 0) m
  · rfl
  · simp only [Option.map_some, Option.bind_some, freevmTables_append]
    obtain _ | m₂ := Xv6.freevmTables img d (List.finRange 1024) m₁
    · rfl
    · exact kfree_append m₂ l d

/-- `freevm` frees the pages of an address space exactly once, whatever is on the free list. -/
theorem freevm_once {r : Ram} (hsound : Sound img (dirPages r.mem.page d)) :
    ∃ r', r.freevm img d = some r' ∧
      (r'.mem.free : Multiset ℕ) = r.mem.free + dirPages r.mem.page d := by
  have hsound₀ : Sound img (({ r.mem with free := [] } : Mem).free +
      dirPages ({ r.mem with free := [] } : Mem).page d) :=
    (zero_add (dirPages r.mem.page d)).symm ▸ hsound
  obtain ⟨m, hfree, hmoves⟩ := freevm_spec hsound₀
  have happend := @freevm_append img d { r.mem with free := [] } r.mem.free
  have hsame : append { r.mem with free := [] } r.mem.free = r.mem := rfl
  rw [hsame, hfree, Option.map_some, ← freevm_mem, Option.map_eq_some_iff] at happend
  obtain ⟨r', hr', hmem⟩ := happend
  refine ⟨r', hr', ?_⟩
  have htotal := hmoves.total
  rw [add_zero] at htotal
  rw [hmem, append, ← Multiset.coe_add, htotal, add_comm]
  congr 1
  exact zero_add _

/-! ## The comparison -/

/-- What the loop of `deallocuvm` starts with, without the wrap of `PGROUNDUP`. -/
def firstPage (newsz : ℕ) : ℕ := (newsz + 4095) / 4096 * 4096

/-- `deallocuvm` visits every page of its range, in order, and nothing else. -/
theorem deallocuvm_page_by_page (img : KernelImage) (r : Ram) (d : ℕ) (oldsz newsz : UInt32)
    (hold : oldsz.toNat ≤ kernbase) (hsound : Sound img (dirPages r.mem.page d)) :
    ∃ r', (∀ fuel ≥ 2 ^ 20, r.deallocuvmWords img d oldsz newsz fuel =
        some (some (if newsz < oldsz then newsz else oldsz, r'))) ∧
      visitPages img d (pagesFrom (firstPage newsz.toNat) oldsz.toNat) r = some r' ∧
      Visited r d (pagesFrom (firstPage newsz.toNat) oldsz.toNat) r' ∧
      (r.frames d (pagesFrom (firstPage newsz.toNat) oldsz.toNat)).Nodup ∧
      ∃ r'', r'.freevm img d = some r'' ∧
        (r''.mem.free : Multiset ℕ) = r.mem.free + dirPages r.mem.page d := by
  have haligned : firstPage newsz.toNat % 4096 = 0 := Nat.mul_mod_left _ _
  have hfirst : newsz.toNat ≤ firstPage newsz.toNat := by
    unfold firstPage
    omega
  obtain ⟨r', hvisit, hvisited⟩ := @visitPages_spec img d _ r
    (fun a ha => (mem_pagesFrom.mp ha).2.1.trans_le hold)
    (pagesFrom_pairwise haligned oldsz.toNat) hsound
  refine ⟨r', fun fuel hfuel => ?_, hvisit, hvisited, ?_, ?_⟩
  · obtain ⟨n, rfl⟩ : ∃ n, fuel = n + 1 := ⟨fuel - 1, by omega⟩
    by_cases hlt : newsz < oldsz
    · have hlt' := UInt32.lt_iff_toNat_lt.mp hlt
      have hround : firstPage newsz.toNat = pgroundup newsz.toNat := by
        unfold kernbase at hold
        unfold firstPage pgroundup pgsize
        omega
      have hword := pgroundupWord_toNat newsz
      rw [← hround] at hword
      rw [deallocuvmWords, if_neg (UInt32.not_le.mpr hlt), if_pos hlt, deallocuvmLoop_eq hold,
        hword, deallocuvmFrom_eq_visitPages haligned, hvisit]
      · rfl
      · rwa [hword]
      · unfold kernbase at hold
        omega
    · have hle := UInt32.not_lt.mp hlt
      rw [UInt32.le_iff_toNat_le] at hle
      rw [pagesFrom_nil (by omega)] at hvisit
      obtain rfl := Option.some.inj hvisit
      rw [deallocuvmWords, if_pos (UInt32.not_lt.mp hlt), if_neg hlt]
  · have hnodup := hsound.nodup
    rw [← hvisited.pages] at hnodup
    exact Multiset.coe_nodup.mp (Multiset.nodup_of_le (Multiset.le_add_right _ _) hnodup)
  · have hsound' : Sound img (dirPages r'.mem.page d) := by
      apply hsound.mono
      rw [← hvisited.pages]
      exact Multiset.le_add_left _ _
    obtain ⟨r'', hfreevm, hfree⟩ := freevm_once hsound'
    refine ⟨r'', hfreevm, ?_⟩
    rw [hfree, hvisited.free, ← Multiset.coe_add, Multiset.coe_reverse, ← hvisited.pages]
    abel

/-- The first process after boot has one page. A `deallocuvm` of the whole user half frees it, and
jumps over the page tables that are absent. -/
theorem deallocuvm_page_by_page_booted : ∃ (r r' : Ram) (d f : ℕ),
    r.deallocuvmWords ProcessMemory.smallKernel d 0x80000000 0 (2 ^ 20) = some (some (0, r')) ∧
      r'.mem.free = f :: r.mem.free := by
  obtain ⟨r, d, hspans, hsafe, -⟩ := exists_booted
  obtain ⟨r', hwords, -, hvisited, -⟩ := deallocuvm_page_by_page ProcessMemory.smallKernel r d
    0x80000000 0 (by decide) (hsafe.mono (Multiset.le_add_left _ _))
  have hmapped : Mapped r.mem.page d 0 := (hspans 0 (by decide)).mpr (by decide)
  have hpages : pagesFrom (firstPage (0 : UInt32).toNat) (0x80000000 : UInt32).toNat =
      0 :: pagesFrom 4096 kernbase := pagesFrom_cons (by decide)
  have hrest : r.frames d (pagesFrom 4096 kernbase) = [] := by
    refine List.filterMap_eq_nil_iff.mpr fun a ha => frameAt_of_not_mapped fun hmapped => ?_
    obtain ⟨hlow, hhigh, -⟩ := mem_pagesFrom.mp ha
    have hbelow := (hspans a hhigh).mp hmapped
    have hround : pgroundup 4096 = 4096 := by decide
    omega
  have hfree := hvisited.free
  rw [hpages, frames, List.filterMap_cons, frameAt_of_mapped hmapped] at hfree
  unfold frames at hrest
  rw [hrest] at hfree
  exact ⟨r, r', d, _, hwords (2 ^ 20) le_rfl, hfree⟩

end Ram

end Xv6
