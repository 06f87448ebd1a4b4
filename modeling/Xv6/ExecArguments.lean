import Xv6.CopyOut
import Xv6.ExecMemory

/-!
# The arguments of `main`

`exec` copies the argument strings to the page at the top of the new address space, each below
the one before, and under them the words that `main` finds on its stack. The page below that one
is not a user page, and a copy that leaves the top page comes by it; so a copy that succeeds has
not left the top page.
-/

namespace Xv6.Ram

open PageStore ProcessMemory

variable {img : KernelImage} {r r' r'' : Ram} {d : ℕ}

/-! ## Reading user memory -/

/-- The byte that a process reads at an address, if the page is a user page. -/
def userRead (r : Ram) (d va : ℕ) : Option UInt8 :=
  (userFrame r.mem.page d va).map fun f => r.byte (f + va % pgsize)

/-- A process reads these bytes from `va` on. -/
def Reads (r : Ram) (d va : ℕ) (data : List UInt8) : Prop :=
  ∀ i, (h : i < data.length) → r.userRead d (va + i) = some data[i]

theorem Reads.congr {va : ℕ} {data : List UInt8} (hreads : r.Reads d va data)
    (hsame : ∀ b, va ≤ b → b < va + data.length → r'.userRead d b = r.userRead d b) :
    r'.Reads d va data := by
  intro i hi
  rw [hsame _ (by omega) (by omega)]
  exact hreads i hi

/-- Reading two runs of bytes one after the other. -/
theorem reads_append {va : ℕ} {p q : List UInt8} :
    r.Reads d va (p ++ q) ↔ r.Reads d va p ∧ r.Reads d (va + p.length) q := by
  constructor
  · intro hreads
    constructor
    · intro i hi
      have hread := hreads i (by rw [List.length_append]; omega)
      rwa [List.getElem_append_left hi] at hread
    · intro i hi
      have hread := hreads (p.length + i) (by rw [List.length_append]; omega)
      rw [List.getElem_append_right (by omega)] at hread
      simpa [Nat.add_assoc] using hread
  · rintro ⟨hleft, hright⟩ i hi
    rw [List.length_append] at hi
    by_cases hp : i < p.length
    · rw [List.getElem_append_left hp]
      exact hleft i hp
    · have hread := hright (i - p.length) (by omega)
      have hindex : va + p.length + (i - p.length) = va + i := by omega
      rw [List.getElem_append_right (by omega), ← hread, hindex]

@[simp] theorem words_length (xs : List ℕ) : (words xs).length = 4 * xs.length := by
  induction xs with
  | nil => rfl
  | cons x xs ih =>
    rw [words, List.flatMap_cons, List.length_append, ← words, ih, List.length_cons]
    simp only [wordBytes, List.length_cons, List.length_nil]
    omega

theorem words_append (xs ys : List ℕ) : words (xs ++ ys) = words xs ++ words ys :=
  List.flatMap_append

/-! ## One copy to the top page -/

/-- A `copyout` that returns 0 has found user pages only, and has written all bytes. -/
theorem copyout_eq_true {va : ℕ} {p : List UInt8} (hva : va < 2 ^ 32)
    (hcall : r.copyout d va p = some (true, r')) :
    (∀ i < p.length, (userFrame r.mem.page d ((va + i) % 2 ^ 32)).isSome) ∧
      r' = r.writeUser d p va := by
  have htables : TablesPresent r.mem d va p.length := by
    by_contra hnot
    rw [copyout_of_not_present hva hnot] at hcall
    cases hcall
  have hsafe := safeCopy_of_present hva htables
  rw [hcall] at hsafe
  obtain ⟨k, -, hok, hframes, hwrite⟩ := hsafe
  obtain rfl : k = p.length := hok.mp rfl
  rw [List.take_length] at hwrite
  exact ⟨hframes, hwrite⟩

/-- The page below `top` is not a user page. -/
def Guarded (r : Ram) (d top : ℕ) : Prop :=
  ∀ b, top ≤ b + pgsize → b < top → ∀ e, Xv6.pte r.mem.page d b = some e → e.u = false

/-- A run of user addresses that ends at `sp`, up to the rounding, does not go below the top
page: it would meet the page under it. -/
theorem range_in_top {top sp len va : ℕ} (hguard : r.Guarded d top) (hlow : pgsize ≤ top)
    (hhigh : top + pgsize < kernbase) (hsp : top ≤ sp) (hsp' : sp ≤ top + pgsize)
    (haligned : top % 4 = 0) (hsp4 : sp % 4 = 0) (hlen : 0 < len)
    (hva : va = wrapUint ((sp : ℤ) - len) / 4 * 4)
    (hframes : ∀ i < len, (userFrame r.mem.page d ((va + i) % 2 ^ 32)).isSome) :
    top ≤ va ∧ va + len ≤ sp := by
  unfold pgsize at *
  unfold kernbase at hhigh
  have hmeets : ∀ i < len, ¬ (top ≤ (va + i) % 2 ^ 32 + 4096 ∧ (va + i) % 2 ^ 32 < top) := by
    rintro i hi ⟨hge, hlt⟩
    obtain ⟨f, hframe⟩ := Option.isSome_iff_exists.mp (hframes i hi)
    obtain ⟨e, hpte, -, huser, -⟩ := userFrame_eq_some.mp hframe
    rw [hguard _ (by unfold pgsize; omega) hlt e hpte] at huser
    cases huser
  unfold wrapUint at hva
  rcases lt_or_ge len (2 ^ 32) with hshort | hlong
  · have hlast := hmeets (len - 1) (by omega)
    by_cases hfits : len ≤ sp
    · have hva' : va = (sp - len) / 4 * 4 := by omega
      by_cases hbelow : va < top
      · by_cases hcross : top < va + len
        · exact absurd ⟨by omega, by omega⟩ (hmeets (top - 1 - va) (by omega))
        · exact absurd ⟨by omega, by omega⟩ hlast
      · omega
    · have hva' : va = (2 ^ 32 + sp - len) / 4 * 4 := by omega
      by_cases hcross : 2 ^ 32 + top < va + len
      · exact absurd ⟨by omega, by omega⟩ (hmeets (2 ^ 32 + top - 1 - va) (by omega))
      · exact absurd ⟨by omega, by omega⟩ hlast
  · have hva' : va < 2 ^ 32 := by omega
    exact absurd ⟨by omega, by omega⟩ (hmeets ((top + 2 ^ 32 - 1 - va) % 2 ^ 32) (by omega))

/-- The top page of an address space, above a page that is not a user page. -/
structure TopPage (r : Ram) (d top : ℕ) : Prop where
  /-- It starts at a page boundary. -/
  aligned : top % pgsize = 0
  /-- There is a page below it. -/
  low : pgsize ≤ top
  /-- It is in the user half. -/
  high : top + pgsize < kernbase
  /-- The page below it is not a user page. -/
  guard : r.Guarded d top

theorem TopPage.congr {top : ℕ} (htop : r.TopPage d top) (hmem : r'.mem = r.mem) :
    r'.TopPage d top := by
  refine ⟨htop.aligned, htop.low, htop.high, ?_⟩
  unfold Guarded
  rw [hmem]
  exact htop.guard

/-- A copy to the user stack that returns 0: the bytes can be read, and the rest of the top page
is as before. -/
theorem copyout_top {top sp va : ℕ} {p : List UInt8} (htop : r.TopPage d top) (hsp : top ≤ sp)
    (hsp' : sp ≤ top + pgsize) (hsp4 : sp % 4 = 0) (hlen : 0 < p.length)
    (hva : va = wrapUint ((sp : ℤ) - p.length) / 4 * 4)
    (hcall : r.copyout d va p = some (true, r')) :
    top ≤ va ∧ va + p.length ≤ sp ∧ r'.mem = r.mem ∧ r'.Reads d va p ∧
      ∀ b, top ≤ b → b < top + pgsize → b < va ∨ va + p.length ≤ b →
        r'.userRead d b = r.userRead d b := by
  have hva32 : va < 2 ^ 32 := by
    rw [hva]
    unfold wrapUint
    omega
  have hpage := htop.aligned
  have hhigh := htop.high
  unfold pgsize at hpage
  obtain ⟨hframes, rfl⟩ := copyout_eq_true hva32 hcall
  obtain ⟨hlow, hend⟩ := range_in_top htop.guard htop.low htop.high hsp hsp' (by omega) hsp4 hlen
    hva hframes
  unfold pgsize kernbase at *
  obtain ⟨f, hframe⟩ := Option.isSome_iff_exists.mp (hframes 0 hlen)
  rw [Nat.add_zero, Nat.mod_eq_of_lt hva32] at hframe
  have hfits : va % 4096 + p.length ≤ 4096 := by omega
  have hwrite : r.writeUser d p va = r.store (f + va % pgsize) p :=
    writeUser_page hva32 hframe hfits
  rw [hwrite]
  have hread : ∀ b, top ≤ b → b < top + 4096 →
      (r.store (f + va % pgsize) p).userRead d b =
        some ((r.store (f + va % pgsize) p).byte (f + b % pgsize)) := by
    intro b hb hb'
    rw [userRead, store_mem, userFrame_congr_page hva32 (by omega) (by omega), hframe,
      Option.map_some]
  have hread₀ : ∀ b, top ≤ b → b < top + 4096 →
      r.userRead d b = some (r.byte (f + b % pgsize)) := by
    intro b hb hb'
    rw [userRead, userFrame_congr_page hva32 (by omega) (by omega), hframe, Option.map_some]
  refine ⟨hlow, hend, rfl, fun i hi => ?_, fun b hb hb' hout => ?_⟩
  · rw [hread _ (by omega) (by omega)]
    unfold store pgsize
    dsimp only
    have hindex : f + (va + i) % 4096 - (f + va % 4096) = i := by omega
    rw [if_pos (by omega), hindex, List.getElem?_eq_getElem hi, Option.getD_some]
  · rw [hread b hb hb', hread₀ b hb hb']
    unfold store pgsize
    dsimp only
    split_ifs with hle
    · rw [List.getElem?_eq_none (by omega), Option.getD_none]
    · rfl

/-! ## The strings -/

/-- The strings lie one below the other between `lo` and `hi`, each with its zero at the end. -/
inductive Stacked (r : Ram) (d : ℕ) : ℕ → List (List UInt8) → List ℕ → ℕ → Prop
  | nil (hi : ℕ) : Stacked r d hi [] [] hi
  | cons {hi p lo : ℕ} {s : List UInt8} {argv : List (List UInt8)} {ptrs : List ℕ}
      (haligned : p % 4 = 0) (hend : p + (s.length + 1) ≤ hi) (hreads : r.Reads d p (s ++ [0]))
      (hrest : Stacked r d p argv ptrs lo) : Stacked r d hi (s :: argv) (p :: ptrs) lo

variable {hi lo : ℕ} {argv : List (List UInt8)} {ptrs : List ℕ}

theorem Stacked.le (hstacked : r.Stacked d hi argv ptrs lo) : lo ≤ hi := by
  induction hstacked with
  | nil => exact le_rfl
  | cons _ hend _ _ ih => omega

theorem Stacked.length_eq (hstacked : r.Stacked d hi argv ptrs lo) :
    ptrs.length = argv.length := by
  induction hstacked with
  | nil => rfl
  | cons _ _ _ _ ih => rw [List.length_cons, List.length_cons, ih]

/-- Writing elsewhere keeps the strings. -/
theorem Stacked.congr (hstacked : r.Stacked d hi argv ptrs lo)
    (hsame : ∀ b, lo ≤ b → b < hi → r'.userRead d b = r.userRead d b) :
    r'.Stacked d hi argv ptrs lo := by
  induction hstacked with
  | nil hi => exact .nil hi
  | cons haligned hend hreads hrest ih =>
    have hle := hrest.le
    refine .cons haligned hend (hreads.congr fun b hb hb' => hsame b (by omega) ?_)
      (ih fun b hb hb' => hsame b hb (by omega))
    rw [List.length_append, List.length_singleton] at hb'
    omega

/-- The loop that pushes the strings. -/
theorem pushArgs_spec {top argc sp sp' : ℕ} (htop : r.TopPage d top) (hsp : top ≤ sp)
    (hsp' : sp ≤ top + pgsize) (hsp4 : sp % 4 = 0)
    (hcall : r.pushArgs d argv argc sp = some (some (sp', ptrs), r')) :
    top ≤ sp' ∧ sp' % 4 = 0 ∧ r'.mem = r.mem ∧ r'.Stacked d sp argv ptrs sp' ∧
      ∀ b, sp ≤ b → b < top + pgsize → r'.userRead d b = r.userRead d b := by
  induction argv generalizing argc sp r ptrs with
  | nil =>
    obtain ⟨⟨rfl, rfl⟩, rfl⟩ : (sp = sp' ∧ [] = ptrs) ∧ r = r' := by simpa [pushArgs] using hcall
    exact ⟨hsp, hsp4, rfl, .nil sp, fun _ _ _ => rfl⟩
  | cons s argv ih =>
    rw [pushArgs] at hcall
    split_ifs at hcall with hmax
    · simp at hcall
    · have hlength : (s ++ [0]).length = s.length + 1 := by simp
      generalize hva : wrapUint ((sp : ℤ) - (s.length + 1)) / 4 * 4 = va at hcall
      dsimp only at hcall
      obtain ⟨⟨ok, r₁⟩, hcopy, hcall⟩ := Option.bind_eq_some_iff.mp hcall
      cases ok with
      | false => simp at hcall
      | true =>
        obtain ⟨⟨res, r₂⟩, hpush, hres⟩ := Option.map_eq_some_iff.mp hcall
        obtain ⟨hsome, rfl⟩ := Prod.mk.inj hres
        obtain ⟨⟨sp₂, ptrs₂⟩, rfl, heq⟩ := Option.map_eq_some_iff.mp hsome
        obtain ⟨rfl, rfl⟩ := Prod.mk.inj heq
        obtain ⟨hlow, hend, hmem, hreads, hkeep⟩ := copyout_top htop hsp hsp' hsp4
          (by rw [hlength]; omega) (by rw [hlength, ← hva]; norm_cast) hcopy
        rw [hlength] at hend hkeep
        have haligned : va % 4 = 0 := by omega
        obtain ⟨hlow', haligned', hmem', hstacked, hkeep'⟩ :=
          ih (htop.congr hmem) hlow (by omega) haligned hpush
        refine ⟨hlow', haligned', hmem'.trans hmem, .cons haligned hend ?_ hstacked,
          fun b hb hb' => ?_⟩
        · exact hreads.congr fun b hb hb' => hkeep' b hb (by omega)
        · rw [hkeep' b (by omega) hb', hkeep b (by omega) hb' (.inr (by omega))]

/-! ## The stack of `main` -/

/-- The ranges of the three words, the array of pointers and the strings: where each starts, and
how long it is. -/
def ranges (esp : ℕ) (argv : List (List UInt8)) (ptrs : List ℕ) : List (ℕ × ℕ) :=
  (esp, 12) :: (esp + 12, 4 * (argv.length + 1)) ::
    List.zipWith (fun p s => (p, s.length + 1)) ptrs argv

/-- Two ranges have no address in common. -/
def Apart (x y : ℕ × ℕ) : Prop := x.1 + x.2 ≤ y.1 ∨ y.1 + y.2 ≤ x.1

/-- What `main` finds on its stack, in an address space of size `sz`. -/
structure Handed (r : Ram) (d sz esp : ℕ) (argv : List (List UInt8)) (ptrs : List ℕ) : Prop where
  /-- The return address, the number of arguments and the pointer to the array. -/
  frame : r.Reads d esp (words [0xffffffff, argv.length, esp + 12])
  /-- The array of the pointers, and 0. -/
  array : r.Reads d (esp + 12) (words (ptrs ++ [0]))
  /-- Each pointer addresses its argument, with a zero at the end. -/
  strings : List.Forall₂ (fun p s => r.Reads d p (s ++ [0])) ptrs argv
  /-- All ranges start at a word boundary. -/
  aligned : ∀ x ∈ ranges esp argv ptrs, x.1 % 4 = 0
  /-- No two of them overlap. -/
  disjoint : (ranges esp argv ptrs).Pairwise Apart
  /-- They are in the top page. -/
  inside : ∀ x ∈ ranges esp argv ptrs, sz - pgsize ≤ x.1 ∧ x.1 + x.2 ≤ sz
  /-- The page below is not a user page. -/
  guard : r.Guarded d (sz - pgsize)

theorem Stacked.strings (hstacked : r.Stacked d hi argv ptrs lo) :
    List.Forall₂ (fun p s => r.Reads d p (s ++ [0])) ptrs argv := by
  induction hstacked with
  | nil => exact .nil
  | cons _ _ hreads _ ih => exact .cons hreads ih

/-- Where the strings are. -/
theorem Stacked.bounds (hstacked : r.Stacked d hi argv ptrs lo) :
    ∀ x ∈ List.zipWith (fun (p : ℕ) (s : List UInt8) => (p, s.length + 1)) ptrs argv,
      x.1 % 4 = 0 ∧ lo ≤ x.1 ∧ x.1 + x.2 ≤ hi := by
  induction hstacked with
  | nil => simp
  | cons haligned hend _ hrest ih =>
    have hle := hrest.le
    intro x hx
    rw [List.zipWith_cons_cons, List.mem_cons] at hx
    obtain rfl | hx := hx
    · exact ⟨haligned, hle, hend⟩
    · obtain ⟨haligned', hlow, hend'⟩ := ih x hx
      exact ⟨haligned', hlow, by omega⟩

theorem Stacked.disjoint (hstacked : r.Stacked d hi argv ptrs lo) :
    (List.zipWith (fun (p : ℕ) (s : List UInt8) => (p, s.length + 1)) ptrs argv).Pairwise
      Apart := by
  induction hstacked with
  | nil => exact .nil
  | cons haligned hend _ hrest ih =>
    rw [List.zipWith_cons_cons]
    exact .cons (fun x hx => .inr (hrest.bounds x hx).2.2) ih

/-- The stack as `exec` builds it: the words and the array in one piece, and the strings right
above them. -/
structure Built (r : Ram) (d sz esp : ℕ) (argv : List (List UInt8)) (ptrs : List ℕ) : Prop where
  /-- The top page. -/
  top : r.TopPage d (sz - pgsize)
  /-- There is one. -/
  size : 2 * pgsize ≤ sz
  /-- The stack pointer is in it. -/
  low : sz - pgsize ≤ esp
  /-- It is a multiple of 4. -/
  aligned : esp % 4 = 0
  /-- The words and the array. -/
  frame : r.Reads d esp (words ([0xffffffff, argv.length, esp + 12] ++ ptrs ++ [0]))
  /-- The strings. -/
  strings : r.Stacked d sz argv ptrs (esp + 4 * (argv.length + 4))

variable {sz esp : ℕ}

/-- Nothing of the stack depends on what is outside of the top page. -/
theorem Built.congr (hbuilt : r.Built d sz esp argv ptrs)
    (hpte : ∀ b, Xv6.pte r'.mem.page d b = Xv6.pte r.mem.page d b)
    (hread : ∀ b, sz - pgsize ≤ b → b < sz → r'.userRead d b = r.userRead d b) :
    r'.Built d sz esp argv ptrs := by
  have hlow := hbuilt.low
  have hle := hbuilt.strings.le
  have hlength := hbuilt.strings.length_eq
  refine ⟨⟨hbuilt.top.aligned, hbuilt.top.low, hbuilt.top.high, ?_⟩, hbuilt.size, hlow,
    hbuilt.aligned, ?_, ?_⟩
  · unfold Guarded
    simp only [hpte]
    exact hbuilt.top.guard
  · refine hbuilt.frame.congr fun b hb hb' => hread b (by omega) ?_
    simp only [words_length, List.length_append, List.length_cons, List.length_nil] at hb'
    omega
  · exact hbuilt.strings.congr fun b hb hb' => hread b (by omega) hb'

/-- The stack that `exec` builds is what `main` expects. -/
theorem Built.handed (hbuilt : r.Built d sz esp argv ptrs) :
    r.Handed d sz esp argv ptrs := by
  have hlow := hbuilt.low
  have haligned := hbuilt.aligned
  have hle := hbuilt.strings.le
  have hbounds := hbuilt.strings.bounds
  have hframe := hbuilt.frame
  rw [List.append_assoc, words_append, reads_append, words_length] at hframe
  refine ⟨hframe.1, hframe.2, hbuilt.strings.strings, fun x hx => ?_, ?_, fun x hx => ?_,
    hbuilt.top.guard⟩
  · rw [ranges, List.mem_cons, List.mem_cons] at hx
    obtain rfl | rfl | hx := hx
    · exact haligned
    · dsimp only
      omega
    · exact (hbounds x hx).1
  · unfold ranges
    refine .cons (fun x hx => .inl ?_) (.cons (fun x hx => .inl ?_) hbuilt.strings.disjoint)
    · rw [List.mem_cons] at hx
      obtain rfl | hx := hx
      · exact le_rfl
      · have hstart := (hbounds x hx).2.1
        dsimp only
        omega
    · have hstart := (hbounds x hx).2.1
      dsimp only
      omega
  · rw [ranges, List.mem_cons, List.mem_cons] at hx
    obtain rfl | rfl | hx := hx
    · dsimp only
      omega
    · dsimp only
      omega
    · obtain ⟨-, hstart, hend⟩ := hbounds x hx
      omega

/-- `clearpteu` takes the permission of the user away from the page. -/
theorem clearpteu_pte {m m' : Mem} {uva b : ℕ} {e : Pte} (hmapped : Mapped m.page d uva)
    (hsound : Sound img (m.free + dirPages m.page d)) (hclear : Xv6.clearpteu d uva m = some m')
    (huva : uva < 2 ^ 32) (hb : b < 2 ^ 32) (hpage : b / 4096 = uva / 4096)
    (hpte : Xv6.pte m'.page d b = some e) : e.u = false := by
  have hnodup := (Multiset.nodup_add.mp hsound.nodup).2.1
  rw [Xv6.clearpteu, walkpgdir_false, if_pos hmapped.1] at hclear
  obtain rfl := Option.some.inj hclear
  rw [setEntry_pte hnodup hmapped.1, if_pos ((pdx_ptx_eq_iff huva hb).mpr hpage)] at hpte
  obtain rfl := Option.some.inj hpte
  rfl

/-- The words under the strings. -/
theorem words_spec {sp : ℕ} {ok : Bool} (htop : r.TopPage d (sz - pgsize))
    (hsize : 2 * pgsize ≤ sz) (hlow : sz - pgsize ≤ sp) (haligned : sp % 4 = 0)
    (hstacked : r.Stacked d sz argv ptrs sp)
    (hcall : r.copyout d (wrapUint ((sp : ℤ) - (3 + ptrs.length + 1) * 4))
      (words ([0xffffffff, ptrs.length, wrapUint ((sp : ℤ) - (ptrs.length + 1) * 4)] ++ ptrs ++
        [0])) = some (ok, r')) (hok : ok = true) :
    r'.mem = r.mem ∧
      r'.Built d sz (wrapUint ((sp : ℤ) - (3 + ptrs.length + 1) * 4)) argv ptrs := by
  subst hok
  have hle := hstacked.le
  have hcount := hstacked.length_eq
  generalize hva : wrapUint ((sp : ℤ) - (3 + ptrs.length + 1) * 4) = va at hcall ⊢
  generalize harray : wrapUint ((sp : ℤ) - (ptrs.length + 1) * 4) = array at hcall
  have hlength : (words ([0xffffffff, ptrs.length, array] ++ ptrs ++ [0])).length =
      4 * (ptrs.length + 4) := by
    rw [words_length]
    simp only [List.length_append, List.length_cons, List.length_nil]
    omega
  unfold wrapUint at hva harray
  obtain ⟨hlow', hend, hmem, hreads, hkeep⟩ := copyout_top htop hlow
    (by unfold pgsize at *; omega) haligned (by rw [hlength]; omega)
    (by rw [hlength]; unfold wrapUint; push_cast; omega) hcall
  rw [hlength] at hend hkeep
  have hsize' := htop.high
  unfold pgsize kernbase at hsize'
  unfold pgsize at hsize hlow' hlow
  have hesp : va + 4 * (argv.length + 4) = sp := by omega
  have harray' : array = va + 12 := by omega
  rw [harray', hcount] at hreads
  refine ⟨hmem, htop.congr hmem, hsize, hlow', by omega, hreads, ?_⟩
  rw [hesp]
  exact hstacked.congr fun b hb hb' => hkeep b (by unfold pgsize; omega) (by unfold pgsize; omega)
    (.inr (by omega))

/-- The user stack of `exec`. -/
theorem execStack_spec {sz₀ : ℕ} (hsz₀ : sz₀ < kernbase) (hspans : Spans r.mem.page d sz₀)
    (hsafe : Safe img r d) (hcall : r.execStack img d sz₀ argv = some (some (sz, esp), r')) :
    Moves r.mem (dirPages r.mem.page d) r'.mem (dirPages r'.mem.page d) ∧
      ∃ ptrs, r'.Built d sz esp argv ptrs := by
  unfold kernbase at hsz₀
  have hround : pgroundup (pgroundup sz₀) = pgroundup sz₀ := by unfold pgroundup pgsize; omega
  have hle : pgroundup sz₀ ≤ kernbase := by unfold pgroundup pgsize kernbase; omega
  have hspans' : Spans r.mem.page d (pgroundup sz₀) := fun b hb => by rw [hspans b hb, hround]
  obtain ⟨⟨sz₂, r₂⟩, halloc, hcall⟩ := Option.bind_eq_some_iff.mp hcall
  have halloc' : Xv6.allocuvm img d (pgroundup sz₀) ((pgroundup sz₀ + 2 * pgsize) % 2 ^ 32)
      r.mem = some (sz₂, r₂.mem) := by
    rw [← allocuvm_mem, halloc]
    rfl
  obtain ⟨hmoves₂, hgrown⟩ := allocuvm_spans hle hspans' hsafe halloc'
  dsimp only at hcall
  by_cases hzero : sz₂ = 0
  · rw [if_pos hzero] at hcall
    simp at hcall
  rw [if_neg hzero] at hcall
  obtain ⟨hmax, hnew, hspans₂⟩ := hgrown hzero
  have haligned₀ : pgroundup sz₀ % 4096 = 0 := by unfold pgroundup pgsize; omega
  have hsize : sz₂ = pgroundup sz₀ + 8192 := by
    unfold kernbase pgsize at *
    omega
  have hsz₂ : sz₂ < kernbase := by
    unfold kernbase pgsize at *
    omega
  have hmapped : Mapped r₂.mem.page d (sz₂ - 2 * pgsize) := by
    refine (hspans₂ _ (by omega)).mpr ?_
    unfold kernbase at hsz₂
    rw [hsize] at hsz₂ ⊢
    unfold pgroundup pgsize at *
    omega
  have hsafe₂ : Sound img (r₂.mem.free + dirPages r₂.mem.page d) := by
    rwa [hmoves₂.total]
  obtain ⟨m₃, hclear, hremaps⟩ := clearpteu_spec hmapped hsafe₂
  obtain ⟨r₃, hr₃, hcall⟩ := Option.bind_eq_some_iff.mp hcall
  rw [clearpteu, hclear, Option.map_some, Option.some.injEq] at hr₃
  have hm₃ : m₃ = r₃.mem := by rw [← hr₃]
  rw [hm₃] at hclear hremaps
  have htop : r₃.TopPage d (sz₂ - pgsize) := by
    unfold kernbase at hsz₂
    unfold pgsize at *
    refine ⟨by unfold pgsize; omega, by unfold pgsize; omega, by unfold pgsize kernbase; omega,
      fun b hb hb' e hpte => ?_⟩
    unfold pgsize at hb
    exact clearpteu_pte hmapped hsafe₂ hclear (by omega) (by omega) (by omega) hpte
  obtain ⟨⟨res, r₄⟩, hpush, hcall⟩ := Option.bind_eq_some_iff.mp hcall
  cases res with
  | none => simp at hcall
  | some res =>
    obtain ⟨sp, ptrs⟩ := res
    dsimp only at hcall
    obtain ⟨⟨ok, r₅⟩, hcopy, hres⟩ := Option.map_eq_some_iff.mp hcall
    unfold pgsize at *
    obtain ⟨hlow, haligned, hmem₄, hstacked, -⟩ := pushArgs_spec htop (by omega)
      (by unfold pgsize; omega) (by omega) hpush
    cases ok with
    | false => simp at hres
    | true =>
      rw [if_pos rfl, Prod.mk.injEq, Option.some.injEq, Prod.mk.injEq] at hres
      obtain ⟨⟨rfl, rfl⟩, rfl⟩ := hres
      obtain ⟨hmem₅, hbuilt⟩ := words_spec (htop.congr hmem₄) (by unfold pgsize; omega) hlow
        haligned hstacked hcopy rfl
      refine ⟨?_, ptrs, hbuilt⟩
      rw [hmem₅, hmem₄]
      exact hmoves₂.trans hremaps.moves

/-- `exec` between `setupkvm` and the commit. -/
theorem execImage_spec {file : Executable} {elf : ElfHdr} (hspans : Spans r.mem.page d 0)
    (hsafe : Safe img r d) (hcall : r.execImage img file elf d argv = some (some (sz, esp), r')) :
    Moves r.mem (dirPages r.mem.page d) r'.mem (dirPages r'.mem.page d) ∧
      ∃ ptrs, r'.Built d sz esp argv ptrs := by
  obtain ⟨⟨res, r₁⟩, hload, hcall⟩ := Option.bind_eq_some_iff.mp hcall
  have hload' : ProcessMemory.execLoad img file.counts d elf.phnum.toNat elf.phoff.toNat 0 r.mem =
      some (res, r₁.mem) := by
    rw [← execLoad_mem, hload]
    rfl
  obtain ⟨hmoves, hresult⟩ := execLoad_spec (by unfold kernbase; omega) hspans hsafe hload'
  cases res with
  | none => simp at hcall
  | some sz₀ =>
    obtain ⟨hsz₀, hspans₁⟩ := hresult sz₀ rfl
    have hsafe₁ : Safe img r₁ d := by
      unfold Safe
      rwa [hmoves.total]
    obtain ⟨hmoves', hbuilt⟩ := execStack_spec hsz₀ hspans₁ hsafe₁ hcall
    exact ⟨hmoves.trans hmoves', hbuilt⟩

/-! ## Freeing the old image -/

/-- A computation that only frees pages: it writes to pages that are then free. -/
structure Frees (r r' : Ram) : Prop where
  /-- Free pages stay free. -/
  free : ∀ f ∈ r.mem.free, f ∈ r'.mem.free
  /-- Other bytes stay as they are. -/
  byte : ∀ a, r'.byte a = r.byte a ∨ ∃ f ∈ r'.mem.free, f ≤ a ∧ a < f + pgsize

theorem Frees.refl (r : Ram) : r.Frees r := ⟨fun _ h => h, fun _ => .inl rfl⟩

theorem Frees.trans (hfirst : r.Frees r') (hsecond : r'.Frees r'') : r.Frees r'' := by
  refine ⟨fun f hf => hsecond.free f (hfirst.free f hf), fun a => ?_⟩
  obtain hsame | hfreed := hsecond.byte a
  · obtain hsame' | ⟨f, hf, hrange⟩ := hfirst.byte a
    · exact .inl (hsame.trans hsame')
    · exact .inr ⟨f, hsecond.free f hf, hrange⟩
  · exact .inr hfreed

theorem kfree_frees {v : ℕ} (hcall : r.kfree img v = some r') : r.Frees r' := by
  obtain ⟨m, hfree, rfl⟩ := Option.map_eq_some_iff.mp hcall
  unfold Xv6.kfree at hfree
  split_ifs at hfree
  obtain rfl := Option.some.inj hfree
  refine ⟨fun f hf => List.mem_cons_of_mem _ hf, fun a => ?_⟩
  unfold fill
  dsimp only
  split_ifs with hpage
  · exact .inr ⟨v, List.mem_cons_self, hpage⟩
  · exact .inl rfl

theorem setEntry_frees (r : Ram) (page : ℕ) (i : Fin 1024) (e : Pte) :
    r.Frees { r with mem := setEntry r.mem page i e } :=
  ⟨fun _ h => h, fun _ => .inl rfl⟩

theorem deallocuvmFrom_frees {oldsz a : ℕ} (hcall : r.deallocuvmFrom img d oldsz a = some r') :
    r.Frees r' := by
  induction hn : oldsz - a using Nat.strong_induction_on generalizing a r with
  | _ n ih =>
    subst hn
    rw [deallocuvmFrom] at hcall
    by_cases ha : a < oldsz
    · have hnext : oldsz - (a + pgsize) < oldsz - a := by unfold pgsize; omega
      have hskip : oldsz - (a / 2 ^ 22 + 1) * 2 ^ 22 < oldsz - a := by omega
      rw [dif_pos ha, walkpgdir_false] at hcall
      by_cases hp : (r.mem.page d (pdx a)).p
      · rw [if_pos hp] at hcall
        dsimp only at hcall
        split_ifs at hcall
        · obtain ⟨r₁, hfree, hcall⟩ := Option.bind_eq_some_iff.mp hcall
          exact (kfree_frees hfree).trans ((setEntry_frees r₁ _ _ _).trans (ih _ hnext hcall rfl))
        · exact ih _ hnext hcall rfl
      · rw [if_neg hp] at hcall
        exact ih _ hskip hcall rfl
    · rw [dif_neg ha] at hcall
      obtain rfl := Option.some.inj hcall
      exact .refl r

theorem freevmTables_frees {is : List (Fin 1024)} (hcall : freevmTables img d is r = some r') :
    r.Frees r' := by
  induction is generalizing r with
  | nil =>
    obtain rfl := Option.some.inj hcall
    exact .refl r
  | cons i is ih =>
    rw [freevmTables] at hcall
    split_ifs at hcall
    · obtain ⟨r₁, hfree, hcall⟩ := Option.bind_eq_some_iff.mp hcall
      exact (kfree_frees hfree).trans (ih hcall)
    · exact ih hcall

theorem freevm_frees (hcall : r.freevm img d = some r') : r.Frees r' := by
  obtain ⟨⟨sz, r₁⟩, hdealloc, hcall⟩ := Option.bind_eq_some_iff.mp hcall
  obtain ⟨r₂, htables, hfree⟩ := Option.bind_eq_some_iff.mp hcall
  have hfirst : r.Frees r₁ := by
    unfold deallocuvm at hdealloc
    split_ifs at hdealloc
    · obtain ⟨-, rfl⟩ := Prod.mk.inj (Option.some.inj hdealloc)
      exact .refl r
    · obtain ⟨r₃, hloop, heq⟩ := Option.map_eq_some_iff.mp hdealloc
      obtain ⟨-, rfl⟩ := Prod.mk.inj heq
      exact deallocuvmFrom_frees hloop
  exact hfirst.trans ((freevmTables_frees htables).trans (kfree_frees hfree))

/-- What a process reads does not change while pages of others are freed. -/
theorem Frees.userRead_eq {b : ℕ} (hfrees : r.Frees r')
    (hsound : Sound img (r'.mem.free + dirPages r.mem.page d))
    (hsame : ∀ f ∈ dirPages r.mem.page d, r'.mem.page f = r.mem.page f) (hb : b < kernbase) :
    r'.userRead d b = r.userRead d b := by
  have hpte : userFrame r'.mem.page d b = userFrame r.mem.page d b := by
    rw [userFrame, userFrame, pte_congr hsame]
  rw [userRead, userRead, hpte]
  cases hframe : userFrame r.mem.page d b with
  | none => rfl
  | some f =>
    obtain ⟨e, hentry, hpresent, -, rfl, -⟩ := userFrame_eq_some.mp hframe
    have hmapped : Mapped r.mem.page d b := mapped_iff_pte.mpr ⟨e, hentry, hpresent⟩
    have hpage : userPage r.mem.page d b = p2v e.addr := by
      unfold Xv6.pte at hentry
      split_ifs at hentry
      obtain rfl := Option.some.inj hentry
      rfl
    have hmem : p2v e.addr ∈ dirPages r.mem.page d := hpage ▸ userPage_mem hb hmapped
    refine congrArg some ((hfrees.byte _).resolve_right ?_)
    rintro ⟨g, hg, hrange⟩
    have hfree := hsound.allocatable g (Multiset.mem_add.mpr (.inl hg))
    have hused := hsound.allocatable _ (Multiset.mem_add.mpr (.inr hmem))
    have hbounds := hfree.bounds.1
    have hbounds' := hused.bounds.1
    unfold pgsize at hrange
    have heq : g = p2v e.addr := by omega
    exact Multiset.disjoint_left.mp (Multiset.nodup_add.mp hsound.nodup).2.2
      (Multiset.mem_coe.mpr hg) (heq ▸ hmem)

/-- Before the old image is freed, the new one is complete, and the two have no page in
common. -/
theorem image_spec {file : Executable} {elf : ElfHdr} {old : ℕ} {r₁ r₂ : Ram}
    (hsafe : Safe img r old) (hsetup : r.setupkvm img = some (some d, r₁))
    (himage : r₁.execImage img file elf d argv = some (some (sz, esp), r₂)) :
    Sound img (r₂.mem.free + dirPages r₂.mem.page old + dirPages r₂.mem.page d) ∧
      ∃ ptrs, r₂.Built d sz esp argv ptrs := by
  have hfree : Sound img r.mem.free := hsafe.mono (Multiset.le_add_right _ _)
  have hsetup' : Xv6.setupkvm img r.mem = some (some d, r₁.mem) := by
    rw [← setupkvm_mem, hsetup]
    rfl
  obtain ⟨d₁, m₁, hsetup₁, hmoves₁, hkernel⟩ | ⟨m₁, hsetup₁, -⟩ := setupkvm_spec hfree
  · rw [hsetup', Option.some.injEq, Prod.mk.injEq, Option.some.injEq] at hsetup₁
    obtain ⟨rfl, rfl⟩ := hsetup₁
    have hspans : Spans r₁.mem.page d 0 := fun b hb => by
      have hzero : pgroundup 0 = 0 := by decide
      rw [hzero]
      exact ⟨fun h => absurd h (hkernel.not_mapped hb), by omega⟩
    have hsafe₁ : Safe img r₁ d := by
      unfold Safe
      rwa [hmoves₁.total, add_zero]
    obtain ⟨hmoves₂, hbuilt⟩ := execImage_spec hspans hsafe₁ himage
    have hnew := hmoves₁.trans hmoves₂
    obtain ⟨hold, -⟩ := frame_dirPages hnew (by simpa using hsafe.nodup) le_rfl
    have hparts : (r₂.mem.free : Multiset ℕ) + dirPages r₂.mem.page d = r.mem.free := by
      rw [hnew.total, add_zero]
    refine ⟨?_, hbuilt⟩
    rw [add_right_comm, hparts, hold]
    exact hsafe
  · rw [hsetup'] at hsetup₁
    simp at hsetup₁

/-- **`exec` hands `main` its arguments.** For every executable and every argument vector: when
`exec` returns 0, the words at the stack pointer are the return address, the number of arguments
and the pointer to the array of pointers to the strings, all in the top page and apart from each
other, and the page below is not a user page. -/
theorem exec_hands_arguments {file : Option Executable} {old : ℕ} (hsafe : Safe img r old)
    (hcall : r.exec img file argv old = some (some (d, sz, esp), r')) :
    ∃ ptrs, r'.Handed d sz esp argv ptrs := by
  unfold exec at hcall
  cases file with
  | none => simp at hcall
  | some file =>
    dsimp only at hcall
    cases helf : file.elf with
    | none => simp [helf] at hcall
    | some elf =>
      rw [helf] at hcall
      dsimp only at hcall
      split_ifs at hcall
      · simp at hcall
      · obtain ⟨⟨pgdir, r₁⟩, hsetup, hcall⟩ := Option.bind_eq_some_iff.mp hcall
        cases pgdir with
        | none => simp at hcall
        | some d' =>
          dsimp only at hcall
          obtain ⟨⟨res, r₂⟩, himage, hcall⟩ := Option.bind_eq_some_iff.mp hcall
          cases res with
          | none => simp at hcall
          | some res =>
            obtain ⟨sz', esp'⟩ := res
            dsimp only at hcall
            obtain ⟨r₃, hfreevm, heq⟩ := Option.map_eq_some_iff.mp hcall
            simp only [Prod.mk.injEq, Option.some.injEq] at heq
            obtain ⟨⟨rfl, rfl, rfl⟩, rfl⟩ := heq
            obtain ⟨hsound₂, ptrs, hbuilt⟩ := image_spec hsafe hsetup himage
            obtain ⟨m₃, hfreevm', hmoves₃⟩ :=
              freevm_spec (hsound₂.mono (Multiset.le_add_right _ _))
            rw [← freevm_mem, hfreevm, Option.map_some, Option.some.injEq] at hfreevm'
            subst hfreevm'
            have hsame : ∀ f ∈ dirPages r₂.mem.page d', r₃.mem.page f = r₂.mem.page f :=
              fun f hf => hmoves₃.page_of_mem_rest hsound₂.nodup hf
            have hsound₃ : Sound img (r₃.mem.free + dirPages r₂.mem.page d') := by
              have htotal := hmoves₃.total
              rw [add_zero] at htotal
              rwa [htotal]
            have hhigh := hbuilt.top.high
            have hsize := hbuilt.size
            refine ⟨ptrs, (hbuilt.congr (pte_congr hsame) fun b hb hb' => ?_).handed⟩
            apply (freevm_frees hfreevm).userRead_eq hsound₃ hsame
            unfold pgsize at *
            omega

/-! ## A program that is executed -/

/-- A run of bytes that fits into its page is copied. -/
theorem copyout_fits {f va : ℕ} {p : List UInt8} (hva : va < 2 ^ 32)
    (hframe : userFrame r.mem.page d va = some f) (hlen : 0 < p.length)
    (hfits : va % 4096 + p.length ≤ 4096) :
    r.copyout d va p = some (true, r.store (f + va % pgsize) p) := by
  have hshort : p.length ≤ pgsize - va % pgsize := by unfold pgsize; omega
  rw [copyout_of_frame hlen ((userFrame_pgrounddown _ _ hva).trans hframe),
    List.take_of_length_le hshort, List.drop_of_length_le hshort, copyout, dif_neg (by simp)]

/-- One round of the loop of `allocuvm`, when two pages are free. -/
theorem allocuvmFrom_round {a oldsz newsz : ℕ} (hsafe : Safe img r d) (haligned : a % 4096 = 0)
    (ha : a < newsz) (hnew : newsz < kernbase) (hunmapped : ¬ Mapped r.mem.page d a)
    (hfree : 2 ≤ r.mem.free.length) :
    ∃ f r₁, r.allocuvmFrom img d oldsz newsz a = r₁.allocuvmFrom img d oldsz newsz (a + pgsize) ∧
      Safe img r₁ d ∧ r.mem.free.length ≤ r₁.mem.free.length + 2 ∧
      (∀ b < 2 ^ 32, Mapped r₁.mem.page d b ↔ Mapped r.mem.page d b ∨ b / 4096 = a / 4096) ∧
      (∀ b < 2 ^ 32, Mapped r.mem.page d b →
        Xv6.pte r₁.mem.page d b = Xv6.pte r.mem.page d b) ∧
      (∀ i, i ≠ pdx a → r₁.mem.page d i = r.mem.page d i) ∧
      userFrame r₁.mem.page d a = some f := by
  cases halloc : Xv6.kalloc r.mem with
  | mk f m₁ =>
    cases f with
    | none =>
      have hnone := (alloc_eq_none halloc).2
      rw [hnone, List.length_nil] at hfree
      omega
    | some f =>
      have hcons := congrArg List.length (alloc_eq_some halloc).1
      rw [List.length_cons] at hcons
      obtain ⟨hf, hpage, hsound₁, ⟨-, hnil⟩ | ⟨m₂, hmap, hremaps⟩⟩ :=
        mapNew ⟨true, true, 0⟩ hsafe haligned (by omega) hunmapped halloc
      · rw [hnil, List.length_nil] at hcons
        omega
      · have hunmapped₁ : ¬ Mapped m₁.page d a := by rwa [hpage]
        have hsmall : Sound img (m₁.free + dirPages m₁.page d) :=
          hsound₁.mono (add_le_add_right (Multiset.le_cons_self _ _) _)
        obtain ⟨hkept, hentry⟩ := mappages_pte hsmall haligned (by omega) hunmapped₁ hmap
        rw [hpage] at hkept
        have hother : ∀ i, i ≠ pdx a → m₂.page d i = r.mem.page d i := by
          intro i hi
          obtain ⟨hfail, -⟩ | ⟨m₃, hmap₃, hentered⟩ := mappages_page (v2p f) ⟨true, true, 0⟩ hsmall
            haligned (by omega) hunmapped₁
          · rw [hmap] at hfail
            simp at hfail
          · rw [hmap] at hmap₃
            obtain ⟨-, rfl⟩ := Prod.mk.inj (Option.some.inj hmap₃)
            rw [hentered.other i hi, hpage]
        refine ⟨f, { r.fill f 0 with mem := m₂ }, ?_, ?_, ?_, hremaps.mapped_iff, hkept, hother, ?_⟩
        · rw [allocuvmFrom_of_kalloc ha halloc hmap, if_pos rfl]
        · unfold Safe
          dsimp only
          rwa [hremaps.moves.total]
        · have hlength := mappages_length (by omega) haligned hmap
          dsimp only
          omega
        · have hbounds := hf.bounds
          exact userFrame_eq_some.mpr
            ⟨_, hentry, rfl, rfl, p2v_v2p hf, by unfold kernbase at *; omega⟩

/-- The loop of `allocuvm` gets to the end, if two pages are free for each page that it adds: the
page and a page table for it. -/
theorem allocuvmFrom_enough {a oldsz newsz n : ℕ} (hsafe : Safe img r d) (haligned : a % 4096 = 0)
    (hnew : newsz < kernbase) (hcount : newsz ≤ a + n * 4096)
    (hunmapped : ∀ b < kernbase, a ≤ b → ¬ Mapped r.mem.page d b)
    (hfree : 2 * n ≤ r.mem.free.length) :
    ∃ r', r.allocuvmFrom img d oldsz newsz a = some (newsz, r') ∧
      r.mem.free.length ≤ r'.mem.free.length + 2 * n ∧
      (∀ b < 2 ^ 32, Mapped r.mem.page d b →
        Xv6.pte r'.mem.page d b = Xv6.pte r.mem.page d b) ∧
      (∀ i, 512 ≤ i.val → r'.mem.page d i = r.mem.page d i) ∧
      ∀ b, a ≤ b → b < newsz → (userFrame r'.mem.page d b).isSome := by
  induction n generalizing a r with
  | zero =>
    refine ⟨r, ?_, by omega, fun _ _ _ => rfl, fun _ _ => rfl, fun b hb hb' => by omega⟩
    rw [allocuvmFrom, dif_neg (by omega)]
  | succ n ih =>
    by_cases ha : a < newsz
    · obtain ⟨f, r₁, hround, hsafe₁, hfree₁, hmapped₁, hkept₁, hother₁, hframe⟩ :=
        @allocuvmFrom_round _ _ _ _ oldsz _ hsafe haligned ha hnew (hunmapped a (by omega) le_rfl)
          (by omega)
      have hnew' := hnew
      unfold kernbase at hnew'
      have hunmapped₁ : ∀ b < kernbase, a + pgsize ≤ b → ¬ Mapped r₁.mem.page d b := by
        intro b hb hle
        have hb' := hb
        unfold kernbase at hb'
        unfold pgsize at hle
        rw [hmapped₁ b (by omega)]
        rintro (h | h)
        · exact hunmapped b hb (by omega) h
        · omega
      obtain ⟨r', hloop, hfree', hkept', hother', hframes⟩ := ih hsafe₁ (a := a + pgsize)
        (by unfold pgsize; omega) (by unfold pgsize; omega) hunmapped₁ (by omega)
      refine ⟨r', hround.trans hloop, by omega, fun b hb hmapped => ?_, fun i hi => ?_,
        fun b hb hb' => ?_⟩
      · rw [hkept' b hb ((hmapped₁ b hb).mpr (.inl hmapped)), hkept₁ b hb hmapped]
      · have hlow := (pdx_lt_iff (show a < 2 ^ 32 by omega)).mpr (show a < kernbase by omega)
        rw [hother' i hi, hother₁ i fun h => by omega]
      · by_cases hlt : b < a + pgsize
        · unfold pgsize at hlt
          have hpage : b / 4096 = a / 4096 := by omega
          have hentry := hkept' b (by omega) ((hmapped₁ b (by omega)).mpr (.inr hpage))
          have hsame : userFrame r'.mem.page d b = userFrame r₁.mem.page d b := by
            rw [userFrame, userFrame, hentry]
          rw [hsame, userFrame_congr_page (a := a) (by omega) (by omega) hpage, hframe]
          rfl
        · exact hframes b (by omega) hb'
    · refine ⟨r, ?_, by omega, fun _ _ _ => rfl, fun _ _ => rfl, fun b hb hb' => by omega⟩
      rw [allocuvmFrom, dif_neg ha]

/-- `allocuvm` grows the address space, if there are two free pages for each page that it adds. -/
theorem allocuvm_enough {oldsz newsz n : ℕ} (hspans : Spans r.mem.page d oldsz)
    (hsafe : Safe img r d) (hpos : 0 < newsz) (hle : oldsz ≤ newsz) (hnew : newsz < kernbase)
    (hcount : newsz ≤ oldsz + n * 4096) (hfree : 2 * n ≤ r.mem.free.length) :
    ∃ r', r.allocuvm img d oldsz newsz = some (newsz, r') ∧ Safe img r' d ∧
      Spans r'.mem.page d newsz ∧ r.mem.free.length ≤ r'.mem.free.length + 2 * n ∧
      (∀ i, 512 ≤ i.val → r'.mem.page d i = r.mem.page d i) ∧
      ∀ b, pgroundup oldsz ≤ b → b < newsz → (userFrame r'.mem.page d b).isSome := by
  have hnew' := hnew
  unfold kernbase at hnew'
  have hround : pgroundup oldsz % 4096 = 0 ∧ oldsz ≤ pgroundup oldsz := by
    unfold pgroundup pgsize
    omega
  have hunmapped : ∀ b < kernbase, pgroundup oldsz ≤ b → ¬ Mapped r.mem.page d b :=
    fun b hb hle h => absurd ((hspans b hb).mp h) (by omega)
  obtain ⟨r', hloop, hfree', -, hother, hframes⟩ := @allocuvmFrom_enough _ _ _ _ oldsz _ n hsafe
    hround.1 hnew (by omega) hunmapped hfree
  have hcall : r.allocuvm img d oldsz newsz = some (newsz, r') := by
    rw [allocuvm, if_neg (by omega), if_neg (by omega), hloop]
  have hmem : Xv6.allocuvm img d oldsz newsz r.mem = some (newsz, r'.mem) := by
    rw [← allocuvm_mem, hcall]
    rfl
  obtain ⟨hmoves, hgrown⟩ := allocuvm_spans (hle.trans hnew.le) hspans hsafe hmem
  refine ⟨r', hcall, ?_, (hgrown hpos.ne').2.2, hfree', hother, hframes⟩
  unfold Safe
  rwa [hmoves.total]

/-- What the strings take on the stack at most, each with its zero and the rounding. -/
def argRoom (argv : List (List UInt8)) : ℕ := (argv.map fun s => s.length + 4).sum

/-- Strings that fit into the top page are pushed. -/
theorem pushArgs_fits {top argc sp f : ℕ} (haligned : top % 4096 = 0) (hhigh : top + 4096 < 2 ^ 32)
    (hframe : ∀ b, top ≤ b → b < top + 4096 → userFrame r.mem.page d b = some f)
    (hcount : argc + argv.length ≤ maxArg) (hroom : top + argRoom argv ≤ sp)
    (hsp : sp ≤ top + 4096) :
    ∃ sp' ptrs r', r.pushArgs d argv argc sp = some (some (sp', ptrs), r') ∧ r'.mem = r.mem ∧
      sp ≤ sp' + argRoom argv ∧ sp' ≤ sp ∧ ptrs.length = argv.length := by
  induction argv generalizing argc sp r with
  | nil => exact ⟨sp, [], r, rfl, rfl, Nat.le_add_right _ _, le_rfl, rfl⟩
  | cons s argv ih =>
    have hsum : argRoom (s :: argv) = s.length + 4 + argRoom argv := by
      rw [argRoom, List.map_cons, List.sum_cons, argRoom]
    rw [hsum] at hroom ⊢
    rw [List.length_cons] at hcount
    have hva : wrapUint ((sp : ℤ) - (s.length + 1)) / 4 * 4 = (sp - (s.length + 1)) / 4 * 4 := by
      unfold wrapUint
      omega
    have hlength : (s ++ [0]).length = s.length + 1 := by simp
    rw [pushArgs, if_neg (by omega)]
    dsimp only
    rw [hva]
    generalize hsp₁ : (sp - (s.length + 1)) / 4 * 4 = sp₁
    have hcopy := @copyout_fits r d f sp₁ (s ++ [0]) (by omega)
      (hframe sp₁ (by omega) (by omega)) (by omega) (by omega)
    generalize hr₁ : r.store (f + sp₁ % pgsize) (s ++ [0]) = r₁ at hcopy
    have hmem₁ : r₁.mem = r.mem := by rw [← hr₁, store_mem]
    obtain ⟨sp', ptrs, r', hpush, hmem', hlow, hup, hptrs⟩ := @ih r₁ (argc + 1) sp₁
      (by rwa [hmem₁]) (by omega) (by omega) (by omega)
    refine ⟨sp', sp₁ :: ptrs, r', ?_, hmem'.trans hmem₁, by omega, by omega, ?_⟩
    · rw [hcopy, Option.bind_some]
      dsimp only
      rw [if_pos rfl, hpush]
      rfl
    · rw [List.length_cons, List.length_cons, hptrs]

/-- The user stack of arguments that fit into a page. -/
theorem execStack_fits {sz₀ : ℕ} (hsz₀ : pgroundup sz₀ + 8192 < kernbase)
    (hspans : Spans r.mem.page d sz₀) (hsafe : Safe img r d) (hfree : 4 ≤ r.mem.free.length)
    (hcount : argv.length ≤ maxArg) (hroom : argRoom argv + 4 * (argv.length + 4) ≤ 4096) :
    ∃ sp r', r.execStack img d sz₀ argv = some (some (pgroundup sz₀ + 8192, sp), r') := by
  generalize hbase : pgroundup sz₀ = base at hsz₀
  have hbase4 : base % 4096 = 0 := by
    unfold pgroundup pgsize at hbase
    omega
  have hsz' := hsz₀
  unfold kernbase at hsz'
  have hround : pgroundup base = base := by
    unfold pgroundup pgsize
    omega
  have hspans' : Spans r.mem.page d base := fun b hb => by rw [hspans b hb, hround, hbase]
  obtain ⟨r₁, halloc, hsafe₁, hspans₁, -, -, hframes⟩ := @allocuvm_enough img r d base
    (base + 8192) 2 hspans' hsafe (by omega) (by omega) hsz₀ (by omega) hfree
  rw [hround] at hframes
  obtain ⟨f, hframe⟩ := Option.isSome_iff_exists.mp (hframes (base + 4096) (by omega) (by omega))
  have hguard : Mapped r₁.mem.page d base := by
    refine (hspans₁ base (by omega)).mpr ?_
    unfold pgroundup pgsize
    omega
  have hnodup := (Multiset.nodup_add.mp hsafe₁.nodup).2.1
  have hclear : Xv6.clearpteu d base r₁.mem = some (setEntry r₁.mem
      (pageTable r₁.mem.page d (pdx base)) (ptx base)
      { r₁.mem.page (pageTable r₁.mem.page d (pdx base)) (ptx base) with u := false }) := by
    rw [Xv6.clearpteu, walkpgdir_false, if_pos hguard.1]
  generalize hm₂ : setEntry r₁.mem _ _ _ = m₂ at hclear
  have htop : ∀ b, base + 4096 ≤ b → b < base + 4096 + 4096 → userFrame m₂.page d b = some f := by
    intro b hb hb'
    have hother : ¬ (pdx b = pdx base ∧ ptx b = ptx base) := by
      rw [pdx_ptx_eq_iff (by omega) (by omega)]
      omega
    have hpte : Xv6.pte m₂.page d b = Xv6.pte r₁.mem.page d b := by
      rw [← hm₂, setEntry_pte hnodup hguard.1, if_neg hother]
    have hsame : userFrame m₂.page d b = userFrame r₁.mem.page d b := by
      rw [userFrame, userFrame, hpte]
    rw [hsame, userFrame_congr_page (a := base + 4096) (by omega) (by omega) (by omega)]
    exact hframe
  generalize hr₂ : ({ r₁ with mem := m₂ } : Ram) = r₂
  have hmem₂ : r₂.mem = m₂ := by rw [← hr₂]
  obtain ⟨sp, ptrs, r₃, hpush, hmem₃, hlow, hup, hptrs⟩ := @pushArgs_fits r₂ d argv (base + 4096) 0
    (base + 8192) f (by omega) (by omega) (by rwa [hmem₂]) (by omega) (by omega) (by omega)
  have hwords : ∀ p : List UInt8, p.length = 4 * (ptrs.length + 4) →
      ∃ r₄, r₃.copyout d (wrapUint ((sp : ℤ) - (3 + ptrs.length + 1) * 4)) p = some (true, r₄) := by
    intro p hp
    have hva : wrapUint ((sp : ℤ) - (3 + ptrs.length + 1) * 4) = sp - 4 * (ptrs.length + 4) := by
      unfold wrapUint
      omega
    rw [hva]
    generalize hesp : sp - 4 * (ptrs.length + 4) = esp
    have hstack : userFrame r₃.mem.page d esp = some f := by
      rw [hmem₃, hmem₂]
      exact htop _ (by omega) (by omega)
    exact ⟨_, copyout_fits (by omega) hstack (by omega) (by omega)⟩
  have hsize : (base + 2 * pgsize) % 2 ^ 32 = base + 8192 := by
    unfold pgsize
    omega
  have hguardAddr : base + 8192 - 2 * pgsize = base := by
    unfold pgsize
    omega
  rw [execStack, hbase, hsize, halloc, Option.bind_some]
  dsimp only
  rw [if_neg (by omega), hguardAddr, clearpteu, hclear, Option.map_some, hr₂, Option.bind_some,
    hpush, Option.bind_some]
  dsimp only
  obtain ⟨r₄, hcopy⟩ := hwords (words ([0xffffffff, ptrs.length,
    wrapUint ((sp : ℤ) - (ptrs.length + 1) * 4)] ++ ptrs ++ [0])) (by
      simp only [words_length, List.length_append, List.length_cons, List.length_nil]
      omega)
  rw [hcopy, Option.map_some]
  exact ⟨_, r₄, rfl⟩

/-- With enough free pages, `setupkvm` returns an address space without user pages. -/
theorem setupkvm_enough {old : ℕ} (hsafe : Safe img r old) (hfree : 521 ≤ r.mem.free.length) :
    ∃ d r₁, r.setupkvm img = some (some d, r₁) ∧ Spans r₁.mem.page d 0 ∧ Safe img r₁ d ∧
      8 ≤ r₁.mem.free.length := by
  have hsound : Sound img r.mem.free := hsafe.mono (Multiset.le_add_right _ _)
  obtain ⟨d, m₁, hmem, hmoves, hkernel⟩ | ⟨m₁, -, -, hsmall⟩ := setupkvm_spec hsound
  · rw [← setupkvm_mem] at hmem
    obtain ⟨⟨pgdir, r₁⟩, hsetup, heq⟩ := Option.map_eq_some_iff.mp hmem
    obtain ⟨rfl, rfl⟩ : pgdir = some d ∧ r₁.mem = m₁ := by simpa using heq
    have hcard := congrArg Multiset.card hmoves.total
    simp only [Multiset.card_add, Multiset.coe_card, add_zero] at hcard
    have hle := hkernel.card_le
    refine ⟨d, r₁, hsetup, fun b hb => ?_, ?_, by omega⟩
    · have hzero : pgroundup 0 = 0 := by decide
      rw [hzero]
      exact ⟨fun h => absurd h (hkernel.not_mapped hb), by omega⟩
    · unfold Safe
      rwa [hmoves.total, add_zero]
  · omega

/-- With enough free pages, `exec` returns 0 if what follows `setupkvm` goes through. -/
theorem exec_succeeds {file : Executable} {elf : ElfHdr} {old : ℕ} (helf : file.elf = some elf)
    (hmagic : elf.magic.toNat = elfMagic) (hsafe : Safe img r old)
    (hfree : 521 ≤ r.mem.free.length)
    (himage : ∀ d r₁, Spans r₁.mem.page d 0 → Safe img r₁ d → 8 ≤ r₁.mem.free.length →
      ∃ sz sp r₂, r₁.execImage img file elf d argv = some (some (sz, sp), r₂)) :
    ∃ d sz sp r', r.exec img (some file) argv old = some (some (d, sz, sp), r') := by
  obtain ⟨d, r₁, hsetup, hspans, hsafe₁, hfree₁⟩ := setupkvm_enough hsafe hfree
  obtain ⟨sz, sp, r₂, himage⟩ := himage d r₁ hspans hsafe₁ hfree₁
  obtain ⟨m₃, hfreevm, -⟩ :=
    freevm_spec ((image_spec hsafe hsetup himage).1.mono (Multiset.le_add_right _ _))
  rw [← freevm_mem] at hfreevm
  obtain ⟨r₃, hfreevm, -⟩ := Option.map_eq_some_iff.mp hfreevm
  refine ⟨d, sz, sp, r₃, ?_⟩
  rw [exec]
  dsimp only
  rw [helf]
  dsimp only
  rw [if_neg (not_not.mpr hmagic), hsetup, Option.bind_some]
  dsimp only
  rw [himage, Option.bind_some]
  dsimp only
  rw [hfreevm, Option.map_some]

/-- A program without segments. -/
def emptyProgram : Executable := ⟨some ⟨0x464C457F, 0, 0⟩, fun _ => none, fun _ _ => []⟩

/-- A memory in which all pages are free but one, an empty page directory. -/
theorem exists_safe : ∃ (r : Ram) (old : ℕ),
    Safe smallKernel r old ∧ 521 ≤ r.mem.free.length := by
  obtain ⟨n, k, -, -, hk, hall⟩ := allPages_eq smallKernel
  have hsound := sound_allPages smallKernel
  have hcard := congrArg Multiset.card hall
  rw [Multiset.card_add, card_pageRange, card_pageRange] at hcard
  clear hall
  generalize allPages smallKernel = pages at hsound hcard
  obtain ⟨old, hold⟩ := Multiset.card_pos_iff_exists_mem.mp
    (show 0 < Multiset.card pages by omega)
  obtain ⟨rest, hrest⟩ := Multiset.exists_cons_of_mem hold
  have hpages : dirPages (fun _ _ => Pte.zero) old = {old} := by
    have hslots : ∀ i, slotPages (fun _ _ => Pte.zero) old i = 0 := fun i => by
      simp [slotPages, Pte.zero]
    rw [dirPages, gather_congr hslots, gather_zero]
    rfl
  refine ⟨⟨⟨rest.toList, fun _ _ => .zero⟩, fun _ => 0⟩, old, ?_, ?_⟩
  · unfold Safe
    dsimp only
    rw [hpages, Multiset.coe_toList, add_comm, Multiset.singleton_add, ← hrest]
    exact hsound
  · rw [hrest, Multiset.card_cons] at hcard
    dsimp only
    rw [Multiset.length_toList]
    omega

/-- Two strings are handed over, and they do not overlap. -/
theorem exec_hands_arguments_twoStrings : ∃ (r : Ram) (old d sz sp : ℕ) (r' : Ram),
    r.exec smallKernel (some emptyProgram) [[101, 99, 104, 111], [104, 105]] old =
        some (some (d, sz, sp), r') ∧
      ∃ p q, r'.Handed d sz sp [[101, 99, 104, 111], [104, 105]] [p, q] ∧
        (p + 5 ≤ q ∨ q + 3 ≤ p) := by
  obtain ⟨r, old, hsafe, hfree⟩ := exists_safe
  have hzero : pgroundup 0 = 0 := by decide
  obtain ⟨d, sz, sp, r', hcall⟩ := @exec_succeeds _ _ [[101, 99, 104, 111], [104, 105]] emptyProgram
    _ _ rfl (by decide) hsafe hfree fun d r₁ hspans hsafe₁ hfree₁ => by
      obtain ⟨sp, r₂, hstack⟩ := @execStack_fits _ r₁ d [[101, 99, 104, 111], [104, 105]] 0
        (by rw [hzero]; decide) hspans hsafe₁ (by omega) (by decide) (by decide)
      exact ⟨_, sp, r₂, hstack⟩
  obtain ⟨ptrs, hhanded⟩ := exec_hands_arguments hsafe hcall
  obtain _ | ⟨-, _ | ⟨-, _ | _⟩⟩ := hhanded.strings
  refine ⟨r, old, d, sz, sp, r', hcall, _, _, hhanded, ?_⟩
  have hapart := (List.pairwise_cons.mp hhanded.disjoint).2
  exact (List.pairwise_cons.mp (List.pairwise_cons.mp hapart).2).1 _ (List.mem_cons_self ..)

end Xv6.Ram
