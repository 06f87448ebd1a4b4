import Xv6.LoggedArguments

/-!
# Decimal numbers across the kernel boundary

`itoa` of `sysfile.c` produces the digits of a number, the lowest first, and leaves them in
that order; `atoi` of `ulib.c` reads the highest first. A number comes back exactly when it
is positive and its digits read the same in both directions.
-/

namespace Xv6.Decimal

open LoggedArguments

/-- The loop of `atoi`, on the bytes of a string and with the number read so far. -/
def atoiLoop (n : ℤ) : List UInt8 → ℤ
  | [] => n
  | c :: s => if 48 ≤ c ∧ c ≤ 57 then atoiLoop (wrapInt (n * 10 + c.toNat - 48)) s else n

/-- `atoi` of `ulib.c`. -/
def atoi (s : List UInt8) : ℤ := atoiLoop 0 s

/-- The bytes of a buffer up to the first NUL. -/
def IsString (mem : ℕ → UInt8) (s : List UInt8) : Prop :=
  (∀ c ∈ s, c ≠ 0) ∧ (∀ k (hk : k < s.length), mem k = s[k]) ∧ mem s.length = 0

/-- A buffer holds a number: a string, not empty, of digits that `atoi` reads as the number. -/
def Holds (mem : ℕ → UInt8) (n : ℤ) : Prop :=
  ∃ s, IsString mem s ∧ s ≠ [] ∧ (∀ c ∈ s, 48 ≤ c ∧ c ≤ 57) ∧ atoi s = n

/-- The character of a digit. -/
def digitChar (d : ℕ) : UInt8 := d.toUInt8 + 48

/-- A buffer has one string only. -/
theorem IsString.unique {mem : ℕ → UInt8} {s t : List UInt8} (hs : IsString mem s)
    (ht : IsString mem t) : s = t := by
  have hlength : ∀ {u v : List UInt8}, IsString mem u → IsString mem v →
      v.length ≤ u.length := by
    intro u v hu hv
    by_contra hlt
    push Not at hlt
    have hnul : v[u.length] = 0 := by rw [← hv.2.1 _ hlt, hu.2.2]
    exact hv.1 _ (List.getElem_mem hlt) hnul
  apply List.ext_getElem
  · exact le_antisymm (hlength ht hs) (hlength hs ht)
  · intro k hk hk'
    rw [← hs.2.1 k hk, ← ht.2.1 k hk']

/-! ## Digits -/

theorem toNat_digitChar {d : ℕ} (hd : d < 10) : (digitChar d).toNat = d + 48 := by
  interval_cases d <;> decide

theorem digitChar_mem {d : ℕ} (hd : d < 10) : 48 ≤ digitChar d ∧ digitChar d ≤ 57 := by
  interval_cases d <;> decide

theorem digitChar_ne_zero {d : ℕ} (hd : d < 10) : digitChar d ≠ 0 := by
  interval_cases d <;> decide

/-- The loop of `itoa` writes the digits from the given index on, then a NUL, and nothing else. -/
theorem itoaLoop_eq {fuel num : ℕ} (hfuel : num ≤ fuel) (index : ℕ) (string : ℕ → UInt8)
    (k : ℕ) :
    itoaLoop fuel num index string k =
      if k < index then string k
      else if hk : k - index < (Nat.digits 10 num).length then
        digitChar (Nat.digits 10 num)[k - index]
      else if k = index + (Nat.digits 10 num).length then 0
      else string k := by
  induction fuel generalizing num index string with
  | zero =>
      obtain rfl : num = 0 := by omega
      by_cases hk : k < index
      · simp [itoaLoop, hk, hk.ne]
      · simp [itoaLoop, hk]
  | succ fuel ih =>
      by_cases hnum : 0 < num
      · have hdigits := Nat.digits_def' (by norm_num : 1 < 10) hnum
        simp only [itoaLoop, if_pos hnum, ih (show num / 10 ≤ fuel by omega), hdigits,
          List.length_cons]
        -- the byte of this round, the bytes before it, and those of the later rounds
        rcases lt_trichotomy k index with hk | rfl | hk
        · simp [hk, show k < index + 1 by omega, hk.ne]
        · simp [digitChar]
        · have hsub : k - index = (k - (index + 1)) + 1 := by omega
          simp only [hsub, List.getElem_cons_succ, Nat.add_lt_add_iff_right, hk.ne', if_false,
            show ¬ k < index by omega, show ¬ k < index + 1 by omega, Nat.add_assoc,
            Nat.add_comm 1]
      · obtain rfl : num = 0 := by omega
        by_cases hk : k < index
        · simp [itoaLoop, hk, hk.ne]
        · simp [itoaLoop, hk]

/-- What `itoa` leaves in the buffer is the string of the digits, the lowest first. -/
theorem itoa_string (string : ℕ → UInt8) (n : ℕ) :
    IsString (itoa string n) ((Nat.digits 10 n).map digitChar) := by
  refine ⟨?_, ?_, ?_⟩
  · intro c hc
    obtain ⟨d, hd, rfl⟩ := List.mem_map.mp hc
    exact digitChar_ne_zero (Nat.digits_lt_base (by norm_num) hd)
  · intro k hk
    rw [List.length_map] at hk
    simp [itoa, itoaLoop_eq le_rfl, hk]
  · simp [itoa, itoaLoop_eq le_rfl]

/-! ## Reading the digits -/

/-- `atoi` reads a string of digits as the number they denote, the highest first, modulo
`2 ^ 32`. -/
theorem atoiLoop_digits {ds : List ℕ} (hds : ∀ d ∈ ds, d < 10) (acc : ℤ) :
    atoiLoop (wrapInt acc) (ds.map digitChar) =
      wrapInt (acc * 10 ^ ds.length + (Nat.ofDigits 10 ds.reverse : ℕ)) := by
  induction ds generalizing acc with
  | nil => simp [atoiLoop]
  | cons d ds ih =>
      have hd : d < 10 := hds d (by simp)
      have hround : wrapInt (wrapInt acc * 10 + (digitChar d).toNat - 48) =
          wrapInt (acc * 10 + d) := by
        rw [toNat_digitChar hd, show wrapInt acc * 10 + ((d + 48 : ℕ) : ℤ) - 48 =
          wrapInt acc * 10 + d by push_cast; ring]
        unfold wrapInt
        rw [← Int.bmod_add_bmod, Int.bmod_mul_bmod, Int.bmod_add_bmod]
      simp only [List.map_cons, atoiLoop, if_pos (digitChar_mem hd), hround,
        ih (fun d hd => hds d (by simp [hd])), List.length_cons, List.reverse_cons,
        Nat.ofDigits_append, List.length_reverse, Nat.ofDigits_singleton]
      congr 1
      push_cast
      ring

theorem atoi_digits {ds : List ℕ} (hds : ∀ d ∈ ds, d < 10) :
    atoi (ds.map digitChar) = wrapInt (Nat.ofDigits 10 ds.reverse : ℕ) := by
  have hloop := atoiLoop_digits hds 0
  simpa [atoi, show wrapInt 0 = 0 by decide] using hloop

/-- The digits in the other order have the same residue modulo 9. -/
theorem reverse_modEq_nine (n : ℕ) :
    Nat.ofDigits 10 (Nat.digits 10 n).reverse ≡ n [MOD 9] := by
  have hsum := Nat.modEq_nine_digits_sum n
  have hreverse := Nat.ofDigits_modEq 10 9 (Nat.digits 10 n).reverse
  rw [show 10 % 9 = 1 from rfl, Nat.ofDigits_one, List.sum_reverse] at hreverse
  exact hreverse.trans hsum.symm

/-- The digits in the other order denote a number of at most as many digits. -/
theorem reverse_lt (n : ℕ) :
    Nat.ofDigits 10 (Nat.digits 10 n).reverse < 10 ^ (Nat.digits 10 n).length := by
  rw [← List.length_reverse]
  apply Nat.ofDigits_lt_base_pow_length (by norm_num)
  intro d hd
  exact Nat.digits_lt_base (by norm_num) (List.mem_reverse.mp hd)

/-- A difference that is a multiple of both `2 ^ 32` and 9 is zero in the range of the numbers
with ten digits. -/
theorem eq_of_wrapInt_eq {r n : ℕ} (hr : r < 10 ^ 10) (hn : (n : ℤ) ≤ intMax)
    (hnine : r ≡ n [MOD 9]) (hwrap : wrapInt r = n) : r = n := by
  obtain ⟨carry, hdiff⟩ : ∃ carry : ℤ, (n : ℤ) + 2 ^ 32 * carry = r := by
    rw [← hwrap]
    exact ⟨_, Int.bmod_add_bdiv r (2 ^ 32)⟩
  unfold intMax at hn
  have hlo : 0 ≤ carry := by omega
  have hhi : carry ≤ 2 := by omega
  have hmod : r % 9 = n % 9 := hnine
  interval_cases carry <;> omega

/-- Reading the digits in the wrong order gives the number back only if no carry out of 32
bits is involved. -/
theorem wrapInt_reverse_eq_iff {n : ℕ} (hn : (n : ℤ) ≤ intMax) :
    wrapInt (Nat.ofDigits 10 (Nat.digits 10 n).reverse : ℕ) = n ↔
      Nat.ofDigits 10 (Nat.digits 10 n).reverse = n := by
  constructor
  · intro hwrap
    have hnine := reverse_modEq_nine n
    have hlength : (Nat.digits 10 n).length ≤ 10 := by
      rw [Nat.digits_length_le_iff (by norm_num)]
      unfold intMax at hn
      omega
    have hlt := (reverse_lt n).trans_le (Nat.pow_le_pow_right (by norm_num) hlength)
    exact eq_of_wrapInt_eq hlt hn hnine hwrap
  · intro heq
    rw [heq]
    exact wrapInt_of_mem (by omega) hn

/-- A number is what its digits in the other order denote when they are the same digits. -/
theorem ofDigits_reverse_eq_iff (n : ℕ) :
    Nat.ofDigits 10 (Nat.digits 10 n).reverse = n ↔
      (Nat.digits 10 n).reverse = Nat.digits 10 n := by
  constructor
  · intro heq
    apply Nat.ofDigits_inj_of_len_eq (show 1 < 10 by norm_num) List.length_reverse
    · intro d hd
      exact Nat.digits_lt_base (by norm_num) (List.mem_reverse.mp hd)
    · intro d hd
      exact Nat.digits_lt_base (by norm_num) hd
    · rw [heq, Nat.ofDigits_digits]
  · intro heq
    rw [heq, Nat.ofDigits_digits]

/-- `itoa` and `atoi` are inverse exactly on the positive numbers whose digits read the same
in both directions. -/
theorem itoa_holds_iff (string : ℕ → UInt8) {n : ℤ} (hlo : 0 ≤ n) (hhi : n ≤ intMax) :
    Holds (itoa string n) n ↔
      0 < n ∧ (Nat.digits 10 n.toNat).reverse = Nat.digits 10 n.toNat := by
  obtain ⟨n, rfl⟩ := Int.eq_ofNat_of_zero_le hlo
  have hds : ∀ d ∈ Nat.digits 10 n, d < 10 := fun d hd => Nat.digits_lt_base (by norm_num) hd
  have hread : atoi ((Nat.digits 10 n).map digitChar) = n ↔
      (Nat.digits 10 n).reverse = Nat.digits 10 n := by
    rw [atoi_digits hds, wrapInt_reverse_eq_iff hhi, ofDigits_reverse_eq_iff]
  have hempty : (Nat.digits 10 n).map digitChar ≠ [] ↔ 0 < n := by
    simp [Nat.digits_eq_nil_iff_eq_zero, Nat.pos_iff_ne_zero]
  rw [Int.toNat_natCast, Nat.cast_pos]
  constructor
  · rintro ⟨s, hs, hne, -, hs'⟩
    obtain rfl := hs.unique (itoa_string string n)
    exact ⟨hempty.mp hne, hread.mp hs'⟩
  · rintro ⟨hpos, hreverse⟩
    refine ⟨_, itoa_string string n, hempty.mpr hpos, ?_, hread.mpr hreverse⟩
    intro c hc
    obtain ⟨d, hd, rfl⟩ := List.mem_map.mp hc
    exact digitChar_mem (hds d hd)

/-- 121 comes back. -/
theorem itoa_holds_palindrome : Holds (itoa (fun _ => 0) 121) 121 := by
  apply (itoa_holds_iff _ (by decide) (by decide)).mpr
  rw [show Int.toNat 121 = 121 from rfl]
  norm_num

/-- 12 comes back as 21. -/
theorem itoa_not_inverse : ¬ ∀ (string : ℕ → UInt8) (n : ℤ), 0 ≤ n → n ≤ intMax →
    Holds (itoa string n) n := by
  intro hall
  obtain ⟨s, hs, -, -, hread⟩ := hall (fun _ => 0) 12 (by decide) (by decide)
  have hstring := itoa_string (fun _ => 0) 12
  rw [show (Nat.digits 10 12).map digitChar = [50, 49] by norm_num; decide] at hstring
  obtain rfl := hs.unique hstring
  revert hread
  decide

end Xv6.Decimal
