import Xv6.UserMemory

/-!
# Copying to user memory

`copyout` writes the bytes of its argument to the user pages it finds, in order, and stops at
the first page that is not one. It does so if no page table is absent up to there: for an
absent one `uva2ka` dereferences the null pointer that `walkpgdir` returns.
-/

namespace Xv6

/-- Write bytes to consecutive user addresses, each to the frame of its page. -/
def Ram.writeUser (d : ℕ) : List UInt8 → ℕ → Ram → Ram
  | [], _, r => r
  | b :: bs, va, r =>
      writeUser d bs ((va + 1) % 2 ^ 32)
        { r with
          byte := Function.update r.byte ((userFrame r.mem.page d va).getD 0 + va % pgsize) b }

/-- What is said of a call of `copyout`: it dereferences no null pointer, and it writes a prefix
of the bytes, the whole of them if it returns 0, to the frames of user pages and nowhere else. -/
def SafeCopy (r : Ram) (d va : ℕ) (p : List UInt8) : Option (Bool × Ram) → Prop
  | none => False
  | some (ok, r') =>
      ∃ k ≤ p.length, (ok = true ↔ k = p.length) ∧
        (∀ i < k, (userFrame r.mem.page d ((va + i) % 2 ^ 32)).isSome) ∧
        r' = r.writeUser d (p.take k) va

/-- No page table is absent for the addresses from `va` on, up to the first one that is not in a
user page. -/
def TablesPresent (m : Mem) (d va len : ℕ) : Prop :=
  ∀ i < len, (∀ j < i, (userFrame m.page d ((va + j) % 2 ^ 32)).isSome) →
    (pte m.page d ((va + i) % 2 ^ 32)).isSome

variable {r : Ram} {d va : ℕ} {p : List UInt8}

@[simp] theorem writeUser_mem (r : Ram) (d va : ℕ) (p : List UInt8) :
    (r.writeUser d p va).mem = r.mem := by
  induction p generalizing r va with
  | nil => rfl
  | cons b bs ih =>
    rw [Ram.writeUser, ih]

/-- Writing two runs of bytes one after the other. -/
theorem writeUser_append (r : Ram) (d va : ℕ) (p q : List UInt8) (hva : va < 2 ^ 32) :
    r.writeUser d (p ++ q) va =
      (r.writeUser d p va).writeUser d q ((va + p.length) % 2 ^ 32) := by
  induction p generalizing r va with
  | nil =>
    rw [List.nil_append, List.length_nil, Nat.add_zero, Nat.mod_eq_of_lt hva]
    rfl
  | cons b bs ih =>
    rw [List.cons_append, Ram.writeUser, ih _ _ (Nat.mod_lt _ (by norm_num)), Ram.writeUser]
    congr 1
    rw [List.length_cons]
    omega

/-- Bytes that lie in one page are copied to one frame. -/
theorem writeUser_page {f : ℕ} (hva : va < 2 ^ 32) (hframe : userFrame r.mem.page d va = some f)
    (hfits : va % 4096 + p.length ≤ 4096) :
    r.writeUser d p va = r.store (f + va % pgsize) p := by
  induction p generalizing r va with
  | nil => simp [Ram.writeUser]
  | cons b bs ih =>
    rw [List.length_cons] at hfits
    rw [Ram.writeUser, Ram.store_cons, hframe, Option.getD_some]
    cases bs with
    | nil => simp [Ram.writeUser]
    | cons c cs =>
      rw [List.length_cons] at hfits
      have hnext : (va + 1) % 2 ^ 32 = va + 1 := by omega
      have hsame : userFrame r.mem.page d (va + 1) = some f := by
        rw [userFrame_congr_page hva (by omega) (by omega), hframe]
      have hrest := ih (r := { r with byte := Function.update r.byte (f + va % pgsize) b })
        (by omega) hsame (by rw [List.length_cons]; omega)
      rw [hnext, hrest]
      unfold pgsize
      congr 1
      omega

/-- The null pointer is dereferenced if the page table is absent. -/
theorem copyout_of_absent (hlen : 0 < p.length)
    (habsent : pte r.mem.page d (pgrounddown va) = none) : r.copyout d va p = none := by
  rw [Ram.copyout, dif_pos hlen, uva2ka_eq, habsent]
  rfl

/-- `copyout` stops at a page that is not a user page. -/
theorem copyout_of_stop {e : Pte} (hlen : 0 < p.length)
    (hpte : pte r.mem.page d (pgrounddown va) = some e)
    (hframe : userFrame r.mem.page d (pgrounddown va) = none) :
    r.copyout d va p = some (false, r) := by
  rw [Ram.copyout, dif_pos hlen, uva2ka_eq, hpte]
  rw [userFrame, hpte, Option.bind_some] at hframe
  simp only [Option.map_some, Option.bind_some]
  by_cases he : e.p ∧ e.u
  · have hzero : p2v e.addr = 0 := by
      by_contra hne
      rw [if_pos ⟨he.1, he.2, hne⟩] at hframe
      cases hframe
    rw [if_pos he, Option.getD_some, if_pos hzero]
  · rw [if_neg he, Option.getD_none, if_pos rfl]

/-- One round of `copyout` in a user page. -/
theorem copyout_of_frame {f : ℕ} (hlen : 0 < p.length)
    (hframe : userFrame r.mem.page d (pgrounddown va) = some f) :
    r.copyout d va p =
      (r.store (f + va % pgsize) (p.take (pgsize - va % pgsize))).copyout d
        ((pgrounddown va + pgsize) % 2 ^ 32) (p.drop (pgsize - va % pgsize)) := by
  obtain ⟨e, hpte, hp, hu, hf, hne⟩ := userFrame_eq_some.mp hframe
  have hoffset : va - pgrounddown va = va % pgsize := by
    unfold pgrounddown pgsize
    omega
  have huva : uva2ka r.mem d (pgrounddown va) = some (some f) := by
    rw [uva2ka_eq, hpte, Option.map_some, if_pos ⟨hp, hu⟩, hf]
  rw [Ram.copyout, dif_pos hlen, huva, Option.bind_some, Option.getD_some, if_neg hne, hoffset]
  dsimp only
  by_cases hshort : p.length ≤ pgsize - va % pgsize
  · rw [min_eq_right hshort, List.take_of_length_le hshort, List.drop_of_length_le hshort,
      List.take_length, List.drop_length]
  · rw [min_eq_left (by omega)]

/-- The page of an address starts at an address with the same entry. -/
theorem pte_pgrounddown (w : ℕ → Fin 1024 → Pte) (d : ℕ) (hva : va < 2 ^ 32) :
    pte w d (pgrounddown va) = pte w d va := by
  apply pte_congr_page hva
  · unfold pgrounddown pgsize
    omega
  · unfold pgrounddown pgsize
    omega

theorem userFrame_pgrounddown (w : ℕ → Fin 1024 → Pte) (d : ℕ) (hva : va < 2 ^ 32) :
    userFrame w d (pgrounddown va) = userFrame w d va := by
  rw [userFrame, userFrame, pte_pgrounddown w d hva]

/-- The address after the page of `va`. -/
theorem next_page (va i : ℕ) (hi : pgsize - va % pgsize ≤ i) :
    ((pgrounddown va + pgsize) % 2 ^ 32 + (i - (pgsize - va % pgsize))) % 2 ^ 32 =
      (va + i) % 2 ^ 32 := by
  unfold pgrounddown pgsize at *
  omega

/-- The addresses up to the end of the page of `va` have the same frame. -/
theorem userFrame_in_page (w : ℕ → Fin 1024 → Pte) (d : ℕ) (hva : va < 2 ^ 32) {i : ℕ}
    (hi : i < pgsize - va % pgsize) : userFrame w d ((va + i) % 2 ^ 32) = userFrame w d va := by
  unfold pgsize at hi
  apply userFrame_congr_page hva
  · omega
  · omega

/-- What is to be present after the page of `va`. -/
theorem tablesPresent_next (m : Mem) (hva : va < 2 ^ 32) (len : ℕ)
    (hframe : (userFrame m.page d va).isSome) :
    TablesPresent m d va len ↔
      TablesPresent m d ((pgrounddown va + pgsize) % 2 ^ 32) (len - (pgsize - va % pgsize)) := by
  set n := pgsize - va % pgsize with hn
  constructor
  · intro htables i hi hbefore
    rw [← Nat.add_sub_cancel (n := i) (m := n), next_page va _ (by omega)]
    refine htables (i + n) (by omega) fun j hj => ?_
    by_cases hjn : j < n
    · rwa [userFrame_in_page _ _ hva hjn]
    · have hprev := hbefore (j - n) (by omega)
      rwa [next_page va _ (by omega)] at hprev
  · intro htables i hi hbefore
    by_cases hin : i < n
    · rw [userFrame, Option.isSome_bind] at hframe
      have hpte : pte m.page d ((va + i) % 2 ^ 32) = pte m.page d va := by
        have hpage := hin
        rw [hn] at hpage
        unfold pgsize at hpage
        exact pte_congr_page hva (by omega) (by omega)
      rw [hpte]
      exact Option.isSome_of_any hframe
    · rw [← next_page va i (by omega)]
      refine htables (i - n) (by omega) fun j hj => ?_
      have hprev := hbefore (j + n) (by omega)
      rwa [← next_page va _ (by omega), Nat.add_sub_cancel] at hprev

/-- A copy after the page of `va` completes the copy of that page. -/
theorem SafeCopy.cons {f : ℕ} {res : Option (Bool × Ram)} (hva : va < 2 ^ 32)
    (hframe : userFrame r.mem.page d va = some f)
    (hrest : SafeCopy (r.store (f + va % pgsize) (p.take (pgsize - va % pgsize))) d
      ((pgrounddown va + pgsize) % 2 ^ 32) (p.drop (pgsize - va % pgsize)) res) :
    SafeCopy r d va p res := by
  obtain _ | ⟨ok, r'⟩ := res
  · exact hrest
  · set n := pgsize - va % pgsize with hn
    obtain ⟨k, hk, hok, hframes, rfl⟩ := hrest
    rw [List.length_drop] at hk hok
    have hfits : va % 4096 + (p.take n).length ≤ 4096 := by
      rw [List.length_take, hn]
      unfold pgsize
      omega
    have hsplit : p.take (n ⊓ p.length + k) = p.take n ++ (p.drop n).take k := by
      by_cases hshort : p.length ≤ n
      · have hzero : k = 0 := by omega
        simp [hshort, hzero, List.take_of_length_le hshort]
      · rw [min_eq_left (by omega), List.take_add]
    refine ⟨n ⊓ p.length + k, by omega, ?_, fun i hi => ?_, ?_⟩
    · rw [hok]
      omega
    · by_cases hin : i < n
      · rw [userFrame_in_page _ _ hva hin, hframe]
        rfl
      · have hnext := hframes (i - n) (by omega)
        rwa [next_page va _ (by omega)] at hnext
    · rw [hsplit, writeUser_append _ _ _ _ _ hva, writeUser_page hva hframe hfits]
      by_cases hshort : p.length ≤ n
      · rw [List.drop_of_length_le hshort]
        simp [Ram.writeUser]
      · have hnext : (va + (p.take n).length) % 2 ^ 32 = (pgrounddown va + pgsize) % 2 ^ 32 := by
          rw [List.length_take, min_eq_left (by omega), hn]
          unfold pgrounddown pgsize
          omega
        rw [hnext]

/-- With the page tables present, `copyout` is safe. -/
theorem safeCopy_of_present (hva : va < 2 ^ 32) (htables : TablesPresent r.mem d va p.length) :
    SafeCopy r d va p (r.copyout d va p) := by
  induction hn : p.length using Nat.strong_induction_on generalizing r va p with
  | _ n ih =>
    subst hn
    by_cases hlen : 0 < p.length
    · obtain ⟨e, hpte⟩ := Option.isSome_iff_exists.mp (htables 0 hlen (by simp))
      rw [Nat.add_zero, Nat.mod_eq_of_lt hva] at hpte
      cases hframe : userFrame r.mem.page d va with
      | none =>
        rw [copyout_of_stop hlen ((pte_pgrounddown _ _ hva).trans hpte)
          ((userFrame_pgrounddown _ _ hva).trans hframe)]
        refine ⟨0, Nat.zero_le _, ?_, by simp, by simp [Ram.writeUser]⟩
        simp [hlen.ne]
      | some f =>
        rw [copyout_of_frame hlen ((userFrame_pgrounddown _ _ hva).trans hframe)]
        have hnext : (pgrounddown va + pgsize) % 2 ^ 32 < 2 ^ 32 := Nat.mod_lt _ (by norm_num)
        have hshort : (p.drop (pgsize - va % pgsize)).length < p.length := by
          rw [List.length_drop]
          unfold pgsize
          omega
        have htables' := (tablesPresent_next _ hva _ (by simp [hframe])).mp htables
        rw [← List.length_drop] at htables'
        exact SafeCopy.cons hva hframe (ih _ hshort hnext htables' rfl)
    · obtain rfl : p = [] := List.length_eq_zero_iff.mp (by omega)
      rw [Ram.copyout, dif_neg hlen]
      exact ⟨0, le_rfl, by simp, by simp, by simp [Ram.writeUser]⟩

/-- Without them, it dereferences a null pointer. -/
theorem copyout_of_not_present (hva : va < 2 ^ 32)
    (htables : ¬ TablesPresent r.mem d va p.length) : r.copyout d va p = none := by
  induction hn : p.length using Nat.strong_induction_on generalizing r va p with
  | _ n ih =>
    subst hn
    have hlen : 0 < p.length := by
      by_contra hzero
      exact htables fun i hi => absurd hi (by omega)
    cases hpte : pte r.mem.page d va with
    | none => exact copyout_of_absent hlen ((pte_pgrounddown _ _ hva).trans hpte)
    | some e =>
      cases hframe : userFrame r.mem.page d va with
      | none =>
        refine absurd ?_ htables
        intro i hi hbefore
        by_cases hi0 : i = 0
        · rw [hi0, Nat.add_zero, Nat.mod_eq_of_lt hva, hpte]
          rfl
        · have hfirst := hbefore 0 (by omega)
          rw [Nat.add_zero, Nat.mod_eq_of_lt hva, hframe] at hfirst
          cases hfirst
      | some f =>
        rw [copyout_of_frame hlen ((userFrame_pgrounddown _ _ hva).trans hframe)]
        have hnext : (pgrounddown va + pgsize) % 2 ^ 32 < 2 ^ 32 := Nat.mod_lt _ (by norm_num)
        have hshort : (p.drop (pgsize - va % pgsize)).length < p.length := by
          rw [List.length_drop]
          unfold pgsize
          omega
        rw [tablesPresent_next _ hva _ (by simp [hframe]), ← List.length_drop] at htables
        exact ih _ hshort hnext htables rfl

/-- **`copyout` is safe just when no page table is absent.** For every page directory, every
address and every run of bytes: it writes the bytes to the frames of user pages, all of them if
it returns 0 and a prefix if it returns -1, and dereferences no null pointer, if and only if the
page tables are present for the addresses from `va` on up to the first one that is not in a
user page. -/
theorem copyout_safe_iff (r : Ram) (d : ℕ) (va : UInt32) (p : List UInt8) :
    SafeCopy r d va.toNat p (r.copyout d va.toNat p) ↔
      TablesPresent r.mem d va.toNat p.length := by
  have hva : va.toNat < 2 ^ 32 := va.toNat_lt
  constructor
  · intro hsafe
    by_contra htables
    rw [copyout_of_not_present hva htables] at hsafe
    exact hsafe
  · exact safeCopy_of_present hva

/-- A page directory of zeroes. -/
def emptyRam : Ram := ⟨⟨[], fun _ _ => .zero⟩, fun _ => 0⟩

theorem copyout_dereferences_null :
    ¬ ∀ (r : Ram) (d : ℕ) (va : UInt32) (p : List UInt8),
      SafeCopy r d va.toNat p (r.copyout d va.toNat p) := by
  intro h
  have habsent : ∀ va, pte emptyRam.mem.page 0 va = none := by
    intro va
    rw [pte, if_neg]
    exact Bool.false_ne_true
  have hnull : emptyRam.copyout 0 (0 : UInt32).toNat [1] = none :=
    copyout_of_absent Nat.one_pos (habsent _)
  have hsafe := h emptyRam 0 0 [1]
  rw [hnull] at hsafe
  exact hsafe

end Xv6
