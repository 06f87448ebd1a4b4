import Mathlib

/-!
# Numbers in byte arrays

Fields of a fixed number of bytes, least significant byte first, in an array of bytes, and
the copying of ranges of bytes.
-/

namespace LittleEndian

/-- The number that the bytes from an offset on hold; the last argument counts the bytes. -/
def get (data : ℕ → UInt8) (off : ℕ) : ℕ → ℕ
  | 0 => 0
  | n + 1 => (data off).toNat + 256 * get data (off + 1) n

/-- The array after the copying of `n` bytes of `src` to the offset `off`. -/
def copy (data : ℕ → UInt8) (off n : ℕ) (src : ℕ → UInt8) : ℕ → UInt8 := fun k =>
  if off ≤ k ∧ k < off + n then src (k - off) else data k

/-- The bytes of a number. -/
def digits (x : ℕ) : ℕ → UInt8 := fun k => UInt8.ofNat (x / 256 ^ k)

/-- The array after a field of `n` bytes has been set. -/
def put (data : ℕ → UInt8) (off n x : ℕ) : ℕ → UInt8 := copy data off n (digits x)

variable {data src : ℕ → UInt8} {off n x : ℕ}

theorem copy_of_mem {k : ℕ} (hlo : off ≤ k) (hhi : k < off + n) :
    copy data off n src k = src (k - off) := by
  unfold copy
  rw [if_pos ⟨hlo, hhi⟩]

theorem copy_of_not_mem {k : ℕ} (hout : k < off ∨ off + n ≤ k) :
    copy data off n src k = data k := by
  unfold copy
  rw [if_neg (by omega)]

/-- A field depends on its own bytes only. -/
theorem get_congr {data' : ℕ → UInt8} {off' : ℕ}
    (heq : ∀ k < n, data (off + k) = data' (off' + k)) : get data off n = get data' off' n := by
  induction n generalizing off off' with
  | zero => rfl
  | succ n ih =>
    have hhead : data off = data' off' := by simpa using heq 0 (by omega)
    have htail : get data (off + 1) n = get data' (off' + 1) n := by
      apply ih
      intro k hk
      simpa [Nat.add_assoc, Nat.add_comm 1 k] using heq (k + 1) (by omega)
    simp only [get, hhead, htail]

/-- Copying outside of a field leaves the field as it is. -/
theorem get_copy_of_disjoint {off' n' : ℕ} (hout : off + n ≤ off' ∨ off' + n' ≤ off) :
    get (copy data off' n' src) off n = get data off n := by
  apply get_congr
  intro k hk
  exact copy_of_not_mem (by omega)

/-- A field inside a copied range is the field of the source. -/
theorem get_copy_of_subset {off' n' : ℕ} (hlo : off' ≤ off) (hhi : off + n ≤ off' + n') :
    get (copy data off' n' src) off n = get src (off - off') n := by
  apply get_congr
  intro k hk
  rw [copy_of_mem (by omega) (by omega)]
  congr 1
  omega

/-- The bytes of a number give the number back, as far as they go. -/
theorem get_digits (x n : ℕ) : get (digits x) 0 n = x % 256 ^ n := by
  have hgeneral : ∀ k, get (digits x) k n = x / 256 ^ k % 256 ^ n := by
    induction n with
    | zero => simp [get, Nat.mod_one]
    | succ n ih =>
      intro k
      have hbyte : (digits x k).toNat = x / 256 ^ k % 256 := by
        simp [digits, UInt8.toNat_ofNat']
      have hnext : x / 256 ^ (k + 1) = x / 256 ^ k / 256 := by
        rw [pow_succ, Nat.div_div_eq_div_mul]
      simp only [get]
      rw [hbyte, ih, hnext, pow_succ', Nat.mod_mul]
  simpa using hgeneral 0

@[simp] theorem get_put_self (data : ℕ → UInt8) (off n x : ℕ) :
    get (put data off n x) off n = x % 256 ^ n := by
  unfold put
  rw [get_copy_of_subset le_rfl le_rfl, Nat.sub_self, get_digits]

theorem get_put_of_disjoint {off' n' : ℕ} (hout : off + n ≤ off' ∨ off' + n' ≤ off) :
    get (put data off' n' x) off n = get data off n :=
  get_copy_of_disjoint hout

/-- An array of zeros holds the number 0 everywhere. -/
@[simp] theorem get_zero (off n : ℕ) : get (fun _ => 0) off n = 0 := by
  induction n generalizing off with
  | zero => rfl
  | succ n ih => simp [get, ih]

end LittleEndian
