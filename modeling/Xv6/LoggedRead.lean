import Xv6.Decimal
import Xv6.SyscallArgs

/-!
# What the log of a read reads

`sys_read` logs its buffer pointer as if it were a string: `set_last_syscall_info` reads up to
ten bytes from it, to the first NUL, whatever the length of the buffer that `argptr` has
checked. The file settles when it stays inside of the buffer.
-/

namespace Xv6.LoggedRead

open ReadLog SyscallArgs LoggedArguments SyscallsHistory

/-- `NOFILE`. -/
def nofile : ℕ := 16

/-- A process that calls `sys_read`. -/
structure Caller (F : Type) extends User where
  /-- `ofile`, without its null pointers. -/
  ofile : ℕ → Option F

variable {F : Type}

namespace Caller

/-- `argfd`: the descriptor and the file. -/
def argfd (c : Caller F) (n : UInt32) : Code (Option (ℕ × F)) := do
  match ← c.argint n with
  | none => pure none
  | some fd =>
      if fd.toInt32.toInt < 0 ∨ fd.toInt32.toInt ≥ nofile then pure none
      else
        match c.ofile fd.toNat with
        | none => pure none
        | some f => pure (some (fd.toNat, f))

/-- The checks of `sys_read`: the file, the buffer pointer and the length. -/
def sysReadArgs (c : Caller F) : Code (Option (F × UInt32 × Int32)) := do
  match ← c.argfd 0 with
  | none => pure none
  | some (_, f) =>
      match ← c.argint 2 with
      | none => pure none
      | some n =>
          match ← c.argptr 1 n.toInt32 with
          | none => pure none
          | some p => pure (some (f, p, n.toInt32))

end Caller

/-- The loop of `set_last_syscall_info` on a string in user memory, from index `i` on: the
condition reads a byte, the body reads it again. -/
def infoLoop (u : User) (input : UInt32) (i : ℕ) : Code ℕ :=
  if _hi : i < 10 then do
    let b ← u.loadChar (input + UInt32.ofNat i)
    if b ≠ 0 then do
      let _ ← u.loadChar (input + UInt32.ofNat i)
      infoLoop u input (i + 1)
    else pure i
  else pure i
termination_by 10 - i

/-- The logging of `sys_read`: the user memory read for it, the history and `temp`. The rows
of string literals and of `temp` read no user memory. -/
def logRead (u : User) (h : SyscallsHistory) (temp : ℕ → UInt8) (p : UInt32) (n : Int32) :
    Code (Option (SyscallsHistory × (ℕ → UInt8))) := do
  let _ ← infoLoop u p 0
  let buffer := fun i => u.mem (p + UInt32.ofNat i)
  pure <| (h.setLastSyscallInfo (cString "fd: ")).bind fun h =>
    (h.setLastSyscallInfo (cString "Inode")).bind fun h =>
    (h.setLastSyscallInfo (cString "ptr: ")).bind fun h =>
    (h.setLastSyscallInfo buffer).bind fun h =>
    (h.setLastSyscallInfo (cString "int")).bind fun h =>
    (h.setLastSyscallInfo (itoa temp n.toInt)).map fun h => (h, itoa temp n.toInt)

variable {u : User} {p : UInt32}

/-! ## The copying loop -/

/-- The loop reads the bytes up to the first NUL, and at most ten. -/
theorem mem_addrs_infoLoop {input a : UInt32} {i : ℕ} :
    a ∈ (infoLoop u input i).addrs ↔ ∃ j, i ≤ j ∧ j < 10 ∧
      (∀ k, i ≤ k → k < j → u.mem (input + UInt32.ofNat k) ≠ 0) ∧
        a = input + UInt32.ofNat j := by
  induction hn : 10 - i generalizing i with
  | zero =>
      rw [infoLoop, dif_neg (by omega), addrs_pure]
      simp only [List.not_mem_nil, false_iff, not_exists]
      omega
  | succ n ih =>
      have hhere : u.loadChar (input + UInt32.ofNat i) =
          ⟨u.mem (input + UInt32.ofNat i), [input + UInt32.ofNat i]⟩ := rfl
      rw [infoLoop, dif_pos (by omega), addrs_bind, hhere]
      by_cases hnul : u.mem (input + UInt32.ofNat i) = 0
      · simp only [hnul, ne_eq, not_true_eq_false, if_false, addrs_pure, List.append_nil,
          List.mem_singleton]
        constructor
        · rintro rfl
          exact ⟨i, le_rfl, by omega, fun k hk hk' => by omega, rfl⟩
        · rintro ⟨j, hj, -, hbefore, rfl⟩
          obtain rfl : j = i := by
            by_contra hne
            exact hbefore i le_rfl (by omega) hnul
          rfl
      · simp only [ne_eq, hnul, not_false_eq_true, if_true, addrs_bind, List.mem_append,
          List.mem_singleton, ih (show 10 - (i + 1) = n by omega)]
        constructor
        · rintro (rfl | rfl | ⟨j, hj, hlt, hbefore, rfl⟩)
          · exact ⟨i, le_rfl, by omega, fun k hk hk' => by omega, rfl⟩
          · exact ⟨i, le_rfl, by omega, fun k hk hk' => by omega, rfl⟩
          · refine ⟨j, by omega, hlt, fun k hk hk' => ?_, rfl⟩
            rcases hk.eq_or_lt with rfl | hk
            · exact hnul
            · exact hbefore k hk hk'
        · rintro ⟨j, hj, hlt, hbefore, rfl⟩
          rcases hj.eq_or_lt with rfl | hj
          · exact Or.inl rfl
          · exact Or.inr (Or.inr ⟨j, hj, hlt, fun k hk => hbefore k (by omega), rfl⟩)

/-- The loop copies as many bytes as the model of `set_last_syscall_info` does. -/
theorem value_infoLoop (u : User) (input : UInt32) :
    (infoLoop u input 0).value = argLength fun i => u.mem (input + UInt32.ofNat i) := by
  have hloop : ∀ n i, n + i = 10 → (infoLoop u input i).value =
      i + ((List.range' i n).takeWhile fun i => u.mem (input + UInt32.ofNat i) != 0).length := by
    intro n
    induction n with
    | zero =>
        intro i hi
        rw [infoLoop, dif_neg (by omega)]
        simp
    | succ n ih =>
        intro i hi
        rw [infoLoop, dif_pos (by omega), List.range'_succ, List.takeWhile_cons, value_bind]
        have hvalue : (u.loadChar (input + UInt32.ofNat i)).value =
            u.mem (input + UInt32.ofNat i) := rfl
        rw [hvalue]
        by_cases hnul : u.mem (input + UInt32.ofNat i) = 0
        · simp [hnul]
        · simp only [ne_eq, hnul, not_false_eq_true, if_true, value_bind, bne_iff_ne,
            List.length_cons, ih (i + 1) (by omega)]
          omega
  rw [hloop 10 0 rfl, argLength, List.range_eq_range', Nat.zero_add]

/-! ## Inside of the buffer -/

/-- What a log of a read is to keep to: the user memory read lies in the buffer, and hence
below `sz`, and the digits of the length stay inside of `temp`, an array of ten bytes. -/
structure Inside (u : User) (p : UInt32) (n : Int32) : Prop where
  /-- The bytes read lie in the buffer. -/
  buffer : ∀ h temp, ∀ a ∈ (logRead u h temp p n).addrs,
    p.toNat ≤ a.toNat ∧ (a.toNat : ℤ) < p.toNat + n.toInt
  /-- The bytes read lie in the address space. -/
  space : ∀ h temp, Within u.InSpace (logRead u h temp p n)
  /-- `itoa` writes ten bytes at most. -/
  temp : ∀ (temp : ℕ → UInt8) (k : ℕ), 10 ≤ k → itoa temp n.toInt k = temp k

theorem Caller.argfd_spec {c : Caller F} (hsz : c.sz.toNat < kernbase) (n : UInt32) :
    Spec c.InSpace (c.argfd n) fun _ => True := by
  unfold argfd
  refine spec_andThen (User.argint_spec hsz n) (by rfl) ?_
  rintro fd -
  dsimp only
  split
  · exact spec_none
  · split
    · exact spec_none
    · exact spec_some trivial

/-- What `sys_read` has checked when it logs. -/
theorem Caller.sysReadArgs_spec {c : Caller F} (hsz : c.sz.toNat < kernbase) :
    Spec c.InSpace c.sysReadArgs fun r =>
      0 ≤ r.2.2.toInt ∧ r.2.1.toNat + r.2.2.toInt.toNat ≤ c.sz.toNat := by
  unfold sysReadArgs
  refine spec_andThen (argfd_spec hsz 0) (by rfl) ?_
  rintro f -
  dsimp only
  refine spec_andThen (User.argint_spec hsz 2) (by rfl) ?_
  rintro n -
  dsimp only
  refine spec_andThen (User.argptr_spec hsz 1 n.toInt32) (by rfl) ?_
  intro p hp
  exact spec_some hp

/-- A number below `10 ^ 9` leaves room for its digits and the NUL in ten bytes. -/
theorem itoa_outside {n : ℕ} (hn : n < 10 ^ 9) (temp : ℕ → UInt8) {k : ℕ} (hk : 10 ≤ k) :
    itoa temp n k = temp k := by
  have hlength : (Nat.digits 10 n).length ≤ 9 := by
    rw [Nat.digits_length_le_iff (by norm_num)]
    exact hn
  rw [itoa, Int.toNat_natCast, Decimal.itoaLoop_eq le_rfl, if_neg (by omega), dif_neg (by omega),
    if_neg (by omega)]

theorem addrs_logRead (h : SyscallsHistory) (temp : ℕ → UInt8) (n : Int32) :
    (logRead u h temp p n).addrs = (infoLoop u p 0).addrs := by
  simp [logRead]

/-- The log of a read stays inside of the buffer exactly when the buffer has ten bytes or a
NUL in it. -/
theorem logRead_inside_iff {c : Caller F} {f : F} {p : UInt32} {n : Int32}
    (hsz : c.sz.toNat ≤ phystop) (hok : c.sysReadArgs.value = some (f, p, n)) :
    Inside c.toUser p n ↔
      10 ≤ n.toInt ∨ ∃ j : ℕ, (j : ℤ) < n.toInt ∧ c.mem (p + UInt32.ofNat j) = 0 := by
  unfold phystop at hsz
  have hbase : c.sz.toNat < kernbase := by
    unfold kernbase
    omega
  obtain ⟨hpos, hrange⟩ : 0 ≤ n.toInt ∧ p.toNat + n.toInt.toNat ≤ c.sz.toNat :=
    (Caller.sysReadArgs_spec hbase).2 _ hok
  have haddr : ∀ j < 10, (p + UInt32.ofNat j).toNat = p.toNat + j := by
    intro j hj
    rw [UInt32.toNat_add, UInt32.toNat_ofNat_of_lt' (by rw [UInt32.size]; omega)]
    omega
  constructor
  · intro hinside
    by_contra hout
    push Not at hout
    obtain ⟨hshort, hnul⟩ := hout
    -- the byte behind the buffer is read
    have hread : p + UInt32.ofNat n.toInt.toNat ∈
        (logRead c.toUser .init (fun _ => 0) p n).addrs := by
      rw [addrs_logRead, mem_addrs_infoLoop]
      exact ⟨n.toInt.toNat, by omega, by omega, fun k _ hk => hnul k (by omega), rfl⟩
    have hbehind := (hinside.buffer _ _ _ hread).2
    rw [haddr _ (by omega)] at hbehind
    omega
  · intro hcond
    have hbuffer : ∀ h temp, ∀ a ∈ (logRead c.toUser h temp p n).addrs,
        p.toNat ≤ a.toNat ∧ (a.toNat : ℤ) < p.toNat + n.toInt := by
      intro h temp a ha
      rw [addrs_logRead, mem_addrs_infoLoop] at ha
      obtain ⟨j, -, hj, hbefore, rfl⟩ := ha
      have hlt : (j : ℤ) < n.toInt := by
        rcases hcond with hlong | ⟨k, hk, hnul⟩
        · omega
        · by_contra hge
          exact hbefore k (Nat.zero_le k) (by omega) hnul
      rw [haddr j hj]
      omega
    refine ⟨hbuffer, fun h temp a ha => ?_, fun temp k hk => ?_⟩
    · have hmem := hbuffer h temp a ha
      unfold User.InSpace
      omega
    · obtain ⟨m, hm⟩ := Int.eq_ofNat_of_zero_le hpos
      rw [hm]
      exact itoa_outside (by omega) temp hk

/-- A process that reads one byte to the last byte of its memory, which holds the character
`a`; its arguments lie from address 4 on. -/
def lastByte : Caller Unit where
  sz := 4096
  esp := 0
  mem a := if a = 8 then 0xFF else if a = 9 then 0x0F else if a = 12 then 1
    else if a = 4095 then 97 else 0
  ofile _ := some ()

/-- A process that reads 16 bytes to address 0. -/
def firstBytes : Caller Unit where
  sz := 4096
  esp := 0
  mem a := if a = 12 then 16 else 0
  ofile _ := some ()

/-- The log of a read of 16 bytes stays inside of the buffer. -/
theorem logRead_inside_firstBytes : Inside firstBytes.toUser 0 16 :=
  (logRead_inside_iff (f := ()) (by decide) (by decide)).mpr (Or.inl (by decide))

/-- The log of a read of one byte goes beyond the end of the process. -/
theorem logRead_not_inside : ¬ ∀ (c : Caller Unit) (f : Unit) (p : UInt32) (n : Int32),
    c.sz.toNat ≤ phystop → c.sysReadArgs.value = some (f, p, n) → Inside c.toUser p n := by
  intro hall
  have hinside := hall lastByte () 4095 1 (by decide) (by decide)
  have hread : (4096 : UInt32) ∈ (logRead lastByte.toUser .init (fun _ => 0) 4095 1).addrs := by
    rw [addrs_logRead, mem_addrs_infoLoop]
    refine ⟨1, by decide, by decide, fun k _ hk => ?_, by decide⟩
    obtain rfl : k = 0 := by omega
    decide
  have hspace := hinside.space _ _ _ hread
  unfold User.InSpace at hspace
  revert hspace
  decide

end Xv6.LoggedRead
