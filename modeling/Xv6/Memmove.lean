import Xv6.GrepLines

/-!
# Moving bytes

`memmove` of the kernel, in `string.c`, and of the user library, in `ulib.c`. Addresses are of
32 bits. The kernel copies downwards where the destination begins inside of the source; the
library always copies upwards, so that it may read bytes that it has written.
-/

namespace Xv6.Memmove

/-- The bytes of the memory, by address. -/
abbrev Memory := ℕ → UInt8

/-- `p + n`, for a pointer to a byte. -/
def plus (p n : ℕ) : ℕ := (p + n) % 2 ^ 32

/-- `while(n-- > 0) *d++ = *s++;`. -/
def copyUp (mem : Memory) (d s : ℕ) : ℕ → Memory
  | 0 => mem
  | n + 1 => copyUp (Function.update mem d (mem s)) (plus d 1) (plus s 1) n

/-- `while(n-- > 0) *--d = *--s;`. -/
def copyDown (mem : Memory) (d s : ℕ) : ℕ → Memory
  | 0 => mem
  | n + 1 =>
      let d := plus d (2 ^ 32 - 1)
      let s := plus s (2 ^ 32 - 1)
      copyDown (Function.update mem d (mem s)) d s n

/-- `memmove` of the kernel: the pointer that it returns, and the memory. -/
def memmove (mem : Memory) (dst src n : ℕ) : ℕ × Memory :=
  if src < dst ∧ dst < plus src n then (dst, copyDown mem (plus dst n) (plus src n) n)
  else (dst, copyUp mem dst src n)

/-- `memmove` of the user library: the pointer that it returns, and the memory. There `n` is an
`int`, so this is what the code does below `2 ^ 31`; a larger number of bytes is negative to it. -/
def ulibMemmove (mem : Memory) (dst src n : ℕ) : ℕ × Memory := (dst, copyUp mem dst src n)

/-- The destination holds the original bytes of the source, and no other byte has changed. -/
def Moved (mem : Memory) (dst src n : ℕ) (mem' : Memory) : Prop :=
  ∀ k, mem' k = if dst ≤ k ∧ k < dst + n then mem (src + (k - dst)) else mem k

/-- The bytes of the source come again at the distance at which the destination begins. -/
def Repeats (mem : Memory) (dst src n : ℕ) : Prop :=
  ∀ k, k + (dst - src) < n → mem (src + k + (dst - src)) = mem (src + k)

variable {mem : Memory} {dst src n : ℕ}

/-- Addresses do not wrap around in a copy inside of the memory. -/
theorem copyUp_eq (hdst : dst + n ≤ 2 ^ 32) (hsrc : src + n ≤ 2 ^ 32) :
    copyUp mem dst src n = Grep.memmove mem dst src n := by
  induction n generalizing mem dst src with
  | zero => rfl
  | succ n ih =>
      rw [copyUp, Grep.memmove]
      cases n with
      | zero => rfl
      | succ n =>
          have hd : plus dst 1 = dst + 1 := Nat.mod_eq_of_lt (by omega)
          have hs : plus src 1 = src + 1 := Nat.mod_eq_of_lt (by omega)
          rw [hd, hs]
          exact ih (by omega) (by omega)

/-- Bytes outside of the destination stay. -/
theorem grepMemmove_of_not_mem {k : ℕ} (hk : k < dst ∨ dst + n ≤ k) :
    Grep.memmove mem dst src n k = mem k := by
  induction n generalizing mem dst src with
  | zero => rfl
  | succ n ih =>
      rw [Grep.memmove, ih (by omega), Function.update_of_ne (by omega)]

/-- Copying upwards to a higher address: a byte of the source that the copy has reached is read
as it has been written. -/
theorem grepMemmove_of_lt (hlt : src < dst) {j : ℕ} (hj : j < n) :
    Grep.memmove mem dst src n (dst + j) =
      if src + j < dst then mem (src + j) else Grep.memmove mem dst src n (src + j) := by
  induction n generalizing mem dst src j with
  | zero => omega
  | succ n ih =>
      have hfirst : Grep.memmove mem dst src (n + 1) dst = mem src := by
        rw [Grep.memmove, grepMemmove_of_not_mem (by omega), Function.update_self]
      cases j with
      | zero =>
          simp only [Nat.add_zero]
          rw [if_pos hlt, hfirst]
      | succ j =>
          have hnext : Grep.memmove (Function.update mem dst (mem src)) (dst + 1) (src + 1) n
              (dst + 1 + j) = _ := ih (by omega) (by omega)
          have hd : dst + 1 + j = dst + (j + 1) := by omega
          have hs : src + 1 + j = src + (j + 1) := by omega
          rw [hd, hs] at hnext
          rw [Grep.memmove, hnext]
          by_cases hbelow : src + (j + 1) < dst
          · rw [if_pos (by omega), if_pos hbelow, Function.update_of_ne (by omega)]
          · rw [if_neg hbelow]
            by_cases hat : src + (j + 1) = dst
            · rw [if_pos (by omega), hat, Function.update_self]
              rw [Grep.memmove] at hfirst
              exact hfirst.symm
            · rw [if_neg (by omega)]

/-- Copying upwards is right just when no byte is read that has changed. -/
theorem moved_copyUp_iff (hdst : dst + n ≤ 2 ^ 32) (hsrc : src + n ≤ 2 ^ 32) :
    Moved mem dst src n (copyUp mem dst src n) ↔
      dst ≤ src ∨ src + n ≤ dst ∨ Repeats mem dst src n := by
  rw [copyUp_eq hdst hsrc]
  by_cases hle : dst ≤ src
  · exact ⟨fun _ => .inl hle, fun _ k => Grep.memmove_apply hle k⟩
  have hread {j : ℕ} (hj : j < n) : Grep.memmove mem dst src n (dst + j) = _ :=
    grepMemmove_of_lt (not_le.mp hle) hj
  constructor
  · intro hmoved
    refine .inr (.inr fun k hk => ?_)
    have hback : src + (k + (dst - src)) = dst + k := by omega
    have hlow := hmoved (dst + k)
    have hhigh := hmoved (dst + (k + (dst - src)))
    rw [if_pos (by omega), Nat.add_sub_cancel_left] at hlow hhigh
    rw [hread hk, if_neg (by omega), hback, hlow] at hhigh
    rw [Nat.add_assoc, hback, hhigh]
  · rintro (hle' | hcond)
    · exact absurd hle' hle
    have hcopied (j : ℕ) (hj : j < n) :
        Grep.memmove mem dst src n (dst + j) = mem (src + j) := by
      induction j using Nat.strongRecOn with
      | ind j ih =>
          rw [hread hj]
          split_ifs with hbelow
          · rfl
          · -- the byte has been written, `dst - src` rounds ago
            have hback : src + j = dst + (j - (dst - src)) := by omega
            have hrepeats := (hcond.resolve_left (by omega)) (j - (dst - src)) (by omega)
            have hsrc' : src + (j - (dst - src)) + (dst - src) = src + j := by omega
            rw [hsrc'] at hrepeats
            rw [hrepeats, hback]
            exact ih _ (by omega) (by omega)
    intro k
    by_cases hk : dst ≤ k ∧ k < dst + n
    · have hj := hcopied (k - dst) (by omega)
      rw [Nat.add_sub_cancel' hk.1] at hj
      rw [if_pos hk, hj]
    · rw [if_neg hk, grepMemmove_of_not_mem (by omega)]

/-- Copying downwards is right for a destination above the source. -/
theorem moved_copyDown (hlt : src < dst) (hdst : dst + n ≤ 2 ^ 32) :
    Moved mem dst src n (copyDown mem (plus dst n) (plus src n) n) := by
  induction n generalizing mem with
  | zero =>
      intro k
      rw [if_neg (by omega)]
      rfl
  | succ n ih =>
      have hpred {p : ℕ} (hp : p + (n + 1) ≤ 2 ^ 32) :
          plus (plus p (n + 1)) (2 ^ 32 - 1) = plus p n := by
        unfold plus
        omega
      have hd : plus dst n = dst + n := Nat.mod_eq_of_lt (by omega)
      have hs : plus src n = src + n := Nat.mod_eq_of_lt (by omega)
      intro k
      rw [copyDown]
      simp only [hpred hdst, hpred (show src + (n + 1) ≤ 2 ^ 32 by omega)]
      rw [ih (by omega) k, hd, hs]
      by_cases hk : k = dst + n
      · rw [if_neg (by omega), if_pos (by omega), hk, Function.update_self,
          Nat.add_sub_cancel_left]
      · by_cases hin : dst ≤ k ∧ k < dst + (n + 1)
        · rw [if_pos (by omega), if_pos hin, Function.update_of_ne (by omega)]
        · rw [if_neg (by omega), if_neg hin, Function.update_of_ne hk]

/-- The kernel moves bytes between any two ranges. -/
theorem moved_memmove (hdst : dst + n ≤ 2 ^ 32) (hsrc : src + n ≤ 2 ^ 32) :
    Moved mem dst src n (memmove mem dst src n).2 := by
  unfold memmove
  split_ifs with hdown
  · exact moved_copyDown hdown.1 hdst
  · refine (moved_copyUp_iff hdst hsrc).mpr ?_
    by_cases hlt : src < dst
    · have hs : plus src n = src + n := Nat.mod_eq_of_lt (by omega)
      rw [hs] at hdown
      exact .inr (.inl (by omega))
    · exact .inl (by omega)

/-- Two moves of the same bytes have the same effect. -/
theorem Moved.eq {mem₁ mem₂ : Memory} (h₁ : Moved mem dst src n mem₁)
    (h₂ : Moved mem dst src n mem₂) : mem₁ = mem₂ := by
  funext k
  rw [h₁, h₂]

/-- Both functions move the bytes, and so have the same effect, just when the destination does
not begin inside of the source, or the bytes of the source come again where it begins. Below
`2 ^ 31` bytes the two functions are those of the code. -/
theorem memmoves_agree_iff (mem : Memory) (dst src n : ℕ) (hdst : dst + n ≤ 2 ^ 32)
    (hsrc : src + n ≤ 2 ^ 32) :
    Moved mem dst src n (memmove mem dst src n).2 ∧
        Moved mem dst src n (ulibMemmove mem dst src n).2 ∧
        memmove mem dst src n = ulibMemmove mem dst src n ↔
      dst ≤ src ∨ src + n ≤ dst ∨ Repeats mem dst src n := by
  have hkernel : Moved mem dst src n (memmove mem dst src n).2 := moved_memmove hdst hsrc
  constructor
  · rintro ⟨-, hulib, -⟩
    exact (moved_copyUp_iff hdst hsrc).mp hulib
  · intro hcond
    have hulib : Moved mem dst src n (ulibMemmove mem dst src n).2 :=
      (moved_copyUp_iff hdst hsrc).mpr hcond
    refine ⟨hkernel, hulib, Prod.ext ?_ (hkernel.eq hulib)⟩
    unfold memmove ulibMemmove
    split_ifs <;> rfl

theorem memmoves_agree_iff_apart : memmove (fun k => UInt8.ofNat k) 5 2 3 =
    ulibMemmove (fun k => UInt8.ofNat k) 5 2 3 :=
  ((memmoves_agree_iff (fun k => UInt8.ofNat k) 5 2 3 (by norm_num) (by norm_num)).mpr
    (.inr (.inl le_rfl))).2.2

/-- Moving two bytes up by one: the library copies the first byte twice. -/
theorem ulibMemmove_overlap : ¬ ∀ mem dst src n, dst + n ≤ 2 ^ 32 → src + n ≤ 2 ^ 32 →
    Moved mem dst src n (memmove mem dst src n).2 ∧
      Moved mem dst src n (ulibMemmove mem dst src n).2 ∧
      memmove mem dst src n = ulibMemmove mem dst src n := by
  intro h
  obtain ⟨-, hulib, -⟩ := h (fun k => UInt8.ofNat k) 1 0 2 (by norm_num) (by norm_num)
  have hlast := hulib 2
  revert hlast
  decide

end Xv6.Memmove
