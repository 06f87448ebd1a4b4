import Xv6.Lib.ReadLog
import Xv6.ProcessMemory

/-!
# System-call arguments

`fetchint`, `fetchstr`, `argint`, `argptr` and `argstr` of `syscall.c` check what user code
passes before the kernel touches it, and `sys_exec` walks an argument vector with them. All
addresses are 32-bit words, so the sums in the checks can wrap. The reads of user memory are
recorded: none is ever at or above the size of the process.
-/

namespace Xv6.SyscallArgs

open ReadLog
open ProcessMemory (maxArg)

/-- What the checks see of the current process. -/
structure User where
  /-- `curproc->sz`. -/
  sz : UInt32
  /-- `curproc->tf->esp`. -/
  esp : UInt32
  /-- The bytes of the address space. -/
  mem : UInt32 → UInt8

/-- Code that reads user memory. -/
abbrev Code (α : Type) := Reading UInt32 α

namespace User

/-- `*s` for a pointer to a `char`. -/
def loadChar (u : User) (s : UInt32) : Code UInt8 := read u.mem s

/-- `*(int*)addr`, as a word. -/
def loadInt (u : User) (addr : UInt32) : Code UInt32 := do
  let b₀ ← u.loadChar addr
  let b₁ ← u.loadChar (addr + 1)
  let b₂ ← u.loadChar (addr + 2)
  let b₃ ← u.loadChar (addr + 3)
  pure (b₀.toUInt32 + b₁.toUInt32 * 0x100 + b₂.toUInt32 * 0x10000 + b₃.toUInt32 * 0x1000000)

/-- `fetchint`; `none` stands for -1. -/
def fetchint (u : User) (addr : UInt32) : Code (Option UInt32) :=
  if addr ≥ u.sz ∨ addr + 4 > u.sz then pure none
  else do
    let i ← u.loadInt addr
    pure (some i)

/-- The loop of `fetchstr`, from the pointer `s` on. -/
def fetchstrLoop (u : User) (addr s : UInt32) : Code (Option (UInt32 × UInt32)) :=
  if hs : s < u.sz then do
    let b ← u.loadChar s
    if b = 0 then pure (some (addr, s - addr)) else u.fetchstrLoop addr (s + 1)
  else pure none
termination_by u.sz.toNat - s.toNat
decreasing_by
  have hlt := u.sz.toNat_lt
  rw [UInt32.lt_iff_toNat_lt] at hs
  rw [UInt32.toNat_add, UInt32.toNat_one]
  omega

/-- `fetchstr`: the pointer it sets and the length it returns. -/
def fetchstr (u : User) (addr : UInt32) : Code (Option (UInt32 × UInt32)) :=
  if addr ≥ u.sz then pure none else u.fetchstrLoop addr addr

/-- `argint`. -/
def argint (u : User) (n : UInt32) : Code (Option UInt32) := u.fetchint (u.esp + 4 + 4 * n)

/-- `argptr`: the pointer it sets. -/
def argptr (u : User) (n : UInt32) (size : Int32) : Code (Option UInt32) := do
  match ← u.argint n with
  | none => pure none
  | some i =>
      if size < 0 ∨ i ≥ u.sz ∨ i + size.toUInt32 > u.sz then pure none else pure (some i)

/-- `argstr`. -/
def argstr (u : User) (n : UInt32) : Code (Option (UInt32 × UInt32)) := do
  match ← u.argint n with
  | none => pure none
  | some addr => u.fetchstr addr

/-- The loop of `sys_exec` over the argument vector, from index `i` on. -/
def argvLoop (u : User) (uargv : UInt32) (i : ℕ) (argv : ℕ → UInt32) :
    Code (Option (ℕ → UInt32)) :=
  if _hi : i ≥ maxArg then pure none
  else do
    match ← u.fetchint (uargv + 4 * UInt32.ofNat i) with
    | none => pure none
    | some uarg =>
        if uarg = 0 then pure (some (Function.update argv i 0))
        else
          match ← u.fetchstr uarg with
          | none => pure none
          | some (p, _) => u.argvLoop uargv (i + 1) (Function.update argv i p)
termination_by maxArg - i

/-- `sys_exec`: the arguments it passes to `exec`, if it gets there. -/
def sysExec (u : User) : Code (Option (UInt32 × (ℕ → UInt32))) := do
  match ← u.argstr 0 with
  | none => pure none
  | some (path, _) =>
      match ← u.argint 1 with
      | none => pure none
      | some uargv =>
          match ← u.argvLoop uargv 0 fun _ => 0 with
          | none => pure none
          | some argv => pure (some (path, argv))

/-- An address lies in `[0, sz)`. -/
def InSpace (u : User) (a : UInt32) : Prop := a.toNat < u.sz.toNat

/-- At `p` there is a string of length `k`, whole and with its NUL in `[0, sz)`. -/
structure IsString (u : User) (p k : UInt32) : Prop where
  /-- The NUL lies below `sz`. -/
  inside : p.toNat + k.toNat < u.sz.toNat
  /-- The NUL. -/
  nul : u.mem (p + k) = 0
  /-- The bytes before it. -/
  before : ∀ j < k, u.mem (p + j) ≠ 0

variable {u : User}

/-! ## Reads of user memory -/

theorem within_loadChar {s : UInt32} (hs : u.InSpace s) : Within u.InSpace (u.loadChar s) :=
  within_read hs

/-- The four bytes of a word. -/
@[simp] theorem addrs_loadInt (u : User) (addr : UInt32) :
    (u.loadInt addr).addrs = [addr, addr + 1, addr + 2, addr + 3] := rfl

theorem within_loadInt {addr : UInt32} (haddr : addr.toNat + 4 ≤ u.sz.toNat) :
    Within u.InSpace (u.loadInt addr) := by
  have hlt := u.sz.toNat_lt
  intro a ha
  simp only [addrs_loadInt, List.mem_cons, List.not_mem_nil, or_false] at ha
  unfold InSpace
  rcases ha with rfl | rfl | rfl | rfl
  · omega
  all_goals
    rw [UInt32.toNat_add]
    simp only [UInt32.reduceToNat]
    omega

/-- The checks of `fetchint` leave only words inside of the address space. -/
theorem fetchint_checked {addr : UInt32} (hsz : u.sz.toNat < kernbase)
    (hok : ¬ (addr ≥ u.sz ∨ addr + 4 > u.sz)) : addr.toNat + 4 ≤ u.sz.toNat := by
  unfold kernbase at hsz
  rw [not_or, ge_iff_le, gt_iff_lt, UInt32.not_le, UInt32.not_lt, UInt32.lt_iff_toNat_lt,
    UInt32.le_iff_toNat_le, UInt32.toNat_add] at hok
  simp only [UInt32.reduceToNat] at hok
  omega

/-- A `fetchint` that succeeds has read the four bytes of one word below `sz`. -/
theorem fetchint_eq_some {addr w : UInt32} (hsz : u.sz.toNat < kernbase)
    (hw : (u.fetchint addr).value = some w) :
    addr.toNat + 4 ≤ u.sz.toNat ∧ (u.fetchint addr).addrs = (u.loadInt addr).addrs := by
  unfold fetchint at hw ⊢
  by_cases hbad : addr ≥ u.sz ∨ addr + 4 > u.sz
  · simp [if_pos hbad] at hw
  · rw [if_neg hbad]
    exact ⟨fetchint_checked hsz hbad, by simp⟩

theorem fetchint_spec (hsz : u.sz.toNat < kernbase) (addr : UInt32) :
    Spec u.InSpace (u.fetchint addr) fun _ => addr.toNat + 4 ≤ u.sz.toNat := by
  unfold fetchint
  by_cases hbad : addr ≥ u.sz ∨ addr + 4 > u.sz
  · rw [if_pos hbad]
    exact spec_none
  · have hword := fetchint_checked hsz hbad
    rw [if_neg hbad]
    exact spec_bind (within_loadInt hword) (spec_some hword)

theorem toNat_succ {s t : UInt32} (hs : s < t) : (s + 1).toNat = s.toNat + 1 := by
  have hlt := t.toNat_lt
  rw [UInt32.lt_iff_toNat_lt] at hs
  rw [UInt32.toNat_add, UInt32.toNat_one]
  omega

/-- The loop of `fetchstr` reads below `sz`, and stops at the first NUL. -/
theorem fetchstrLoop_spec {addr s : UInt32} (hle : addr ≤ s)
    (hbefore : ∀ j < s - addr, u.mem (addr + j) ≠ 0) :
    Spec u.InSpace (u.fetchstrLoop addr s) fun r => r.1 = addr ∧ u.IsString addr r.2 := by
  induction hn : u.sz.toNat - s.toNat generalizing s with
  | zero =>
      have hs : ¬ s < u.sz := by
        rw [UInt32.lt_iff_toNat_lt]
        omega
      rw [fetchstrLoop, dif_neg hs]
      exact spec_none
  | succ n ih =>
      have hs : s < u.sz := by
        rw [UInt32.lt_iff_toNat_lt]
        omega
      have hdist := UInt32.toNat_sub_of_le s addr hle
      have hend : addr + (s - addr) = s := by rw [UInt32.add_comm, UInt32.sub_add_cancel]
      have hsucc := toNat_succ hs
      rw [UInt32.le_iff_toNat_le] at hle
      rw [fetchstrLoop, dif_pos hs]
      apply spec_bind (within_loadChar (UInt32.lt_iff_toNat_lt.mp hs))
      by_cases hnul : u.mem s = 0
      · -- the NUL: the string ends here
        have hvalue : (u.loadChar s).value = 0 := hnul
        rw [if_pos hvalue]
        refine spec_some ⟨rfl, ?_, by rw [hend, hnul], hbefore⟩
        rw [UInt32.lt_iff_toNat_lt] at hs
        rw [hdist]
        omega
      · have hvalue : ¬ (u.loadChar s).value = 0 := hnul
        rw [if_neg hvalue]
        apply ih
        · rw [UInt32.le_iff_toNat_le]
          omega
        · intro j hj
          have hdist' := UInt32.toNat_sub_of_le (s + 1) addr
            (by rw [UInt32.le_iff_toNat_le]; omega)
          rw [UInt32.lt_iff_toNat_lt, hdist', hsucc] at hj
          by_cases hlast : j = s - addr
          · rwa [hlast, hend]
          · rw [← UInt32.toNat_inj] at hlast
            exact hbefore j (by rw [UInt32.lt_iff_toNat_lt]; omega)
        · omega

theorem fetchstr_spec (u : User) (addr : UInt32) :
    Spec u.InSpace (u.fetchstr addr) fun r => r.1 = addr ∧ u.IsString addr r.2 := by
  unfold fetchstr
  split
  · exact spec_none
  · apply fetchstrLoop_spec (UInt32.le_refl _)
    intro j hj
    rw [UInt32.sub_self] at hj
    exact absurd hj UInt32.not_lt_zero

theorem argint_spec (hsz : u.sz.toNat < kernbase) (n : UInt32) :
    Spec u.InSpace (u.argint n) fun _ => True :=
  (fetchint_spec hsz _).mono fun _ _ => trivial

/-- A non-negative `int` as a `uint`. -/
theorem toNat_toUInt32 {x : Int32} (hx : ¬ x < 0) :
    0 ≤ x.toInt ∧ x.toInt < 2 ^ 31 ∧ x.toUInt32.toNat = x.toInt.toNat := by
  have hpos : 0 ≤ x.toInt := by
    rw [Int32.lt_iff_toInt_lt] at hx
    simpa using hx
  have hlt := x.toBitVec.isLt
  have hint : x.toInt = x.toBitVec.toInt := rfl
  have hword : x.toUInt32.toNat = x.toBitVec.toNat := rfl
  rw [hint, BitVec.toInt_eq_toNat_cond] at hpos ⊢
  split at hpos
  · rename_i hsmall
    rw [if_pos hsmall, hword]
    omega
  · omega

/-- `argptr` accepts only ranges inside of the address space: none of its sums wraps. -/
theorem argptr_spec (hsz : u.sz.toNat < kernbase) (n : UInt32) (size : Int32) :
    Spec u.InSpace (u.argptr n size) fun p =>
      0 ≤ size.toInt ∧ p.toNat + size.toInt.toNat ≤ u.sz.toNat := by
  unfold argptr
  refine spec_andThen (argint_spec hsz n) (by rfl) ?_
  rintro i -
  dsimp only
  by_cases hbad : size < 0 ∨ i ≥ u.sz ∨ i + size.toUInt32 > u.sz
  · rw [if_pos hbad]
    exact spec_none
  · rw [if_neg hbad]
    simp only [not_or, ge_iff_le, gt_iff_lt, UInt32.not_le, UInt32.not_lt] at hbad
    obtain ⟨hsize, hlow, hhigh⟩ := hbad
    obtain ⟨hpos, hlt, hword⟩ := toNat_toUInt32 hsize
    unfold kernbase at hsz
    rw [UInt32.lt_iff_toNat_lt] at hlow
    rw [UInt32.le_iff_toNat_le, UInt32.toNat_add, hword] at hhigh
    exact spec_some ⟨hpos, by omega⟩

theorem argstr_spec (hsz : u.sz.toNat < kernbase) (n : UInt32) :
    Spec u.InSpace (u.argstr n) fun r => u.IsString r.1 r.2 := by
  unfold argstr
  refine spec_andThen (argint_spec hsz n) (by rfl) ?_
  rintro addr -
  dsimp only
  apply (u.fetchstr_spec addr).mono
  rintro r ⟨haddr, hstring⟩
  rwa [haddr]

/-! ## The argument vector -/

/-- What a walk over the vector has found: strings below index `i`, none at address 0. -/
def Strings (u : User) (argv : ℕ → UInt32) (i : ℕ) : Prop :=
  ∀ j < i, argv j ≠ 0 ∧ ∃ k, u.IsString (argv j) k

theorem Strings.update {argv : ℕ → UInt32} {i : ℕ} (h : u.Strings argv i) (p : UInt32) :
    u.Strings (Function.update argv i p) i := by
  intro j hj
  rw [Function.update_of_ne hj.ne]
  exact h j hj

theorem Strings.snoc {argv : ℕ → UInt32} {i : ℕ} {p k : UInt32} (h : u.Strings argv i)
    (hp : p ≠ 0) (hk : u.IsString p k) : u.Strings (Function.update argv i p) (i + 1) := by
  intro j hj
  by_cases hlast : j = i
  · subst hlast
    rw [Function.update_self]
    exact ⟨hp, k, hk⟩
  · exact h.update p j (by omega)

/-- The walk reads below `sz`, and ends with a null pointer behind fewer than `MAXARG`
strings. -/
theorem argvLoop_spec (hsz : u.sz.toNat < kernbase) (uargv : UInt32) {i : ℕ}
    {argv : ℕ → UInt32} (h : u.Strings argv i) :
    Spec u.InSpace (u.argvLoop uargv i argv) fun argv' =>
      ∃ c < maxArg, argv' c = 0 ∧ u.Strings argv' c := by
  induction hn : maxArg - i generalizing i argv with
  | zero =>
      rw [argvLoop, dif_pos (by omega)]
      exact spec_none
  | succ n ih =>
      rw [argvLoop, dif_neg (by omega)]
      refine spec_andThen (fetchint_spec hsz _) (by rfl) ?_
      rintro uarg -
      dsimp only
      by_cases hzero : uarg = 0
      · rw [if_pos hzero]
        exact spec_some ⟨i, by omega, Function.update_self .., h.update 0⟩
      · rw [if_neg hzero]
        refine spec_andThen (u.fetchstr_spec uarg) (by rfl) ?_
        rintro ⟨p, k⟩ ⟨rfl, hstring⟩
        dsimp only
        exact ih (h.snoc hzero hstring) (by omega)

/-- What `sys_exec` passes to `exec`: a path, and a vector of fewer than `MAXARG` strings
with a null pointer behind them. -/
structure ExecArgs (u : User) (path : UInt32) (argv : ℕ → UInt32) : Prop where
  /-- The path is a string. -/
  path : ∃ k, u.IsString path k
  /-- The vector ends. -/
  argv : ∃ c < maxArg, argv c = 0 ∧ u.Strings argv c

theorem sysExec_spec (hsz : u.sz.toNat < kernbase) :
    Spec u.InSpace u.sysExec fun r => u.ExecArgs r.1 r.2 := by
  unfold sysExec
  refine spec_andThen (argstr_spec hsz 0) (by rfl) ?_
  rintro ⟨path, k⟩ hpath
  dsimp only
  refine spec_andThen (argint_spec hsz 1) (by rfl) ?_
  rintro uargv -
  dsimp only
  refine spec_andThen (argvLoop_spec hsz uargv fun j hj => absurd hj (Nat.not_lt_zero j))
    (by rfl) ?_
  intro argv hargv
  dsimp only
  exact spec_some ⟨⟨k, hpath⟩, hargv⟩

end User

/-- The checks are sound: in a process below `KERNBASE` no argument, stack pointer or content
of memory makes the kernel read outside of the address space, and what the checks accept lies
in it. -/
theorem arguments_sound (u : User) (hsz : u.sz.toNat < kernbase) :
    (∀ addr, Within u.InSpace (u.fetchint addr) ∧ ∀ w, (u.fetchint addr).value = some w →
      addr.toNat + 4 ≤ u.sz.toNat ∧
        (u.fetchint addr).addrs = [addr, addr + 1, addr + 2, addr + 3]) ∧
    (∀ n size, Within u.InSpace (u.argptr n size) ∧ ∀ p, (u.argptr n size).value = some p →
      0 ≤ size.toInt ∧ p.toNat + size.toInt.toNat ≤ u.sz.toNat) ∧
    (∀ addr, Within u.InSpace (u.fetchstr addr) ∧ ∀ p k,
      (u.fetchstr addr).value = some (p, k) → p = addr ∧ u.IsString p k) ∧
    (∀ n, Within u.InSpace (u.argstr n) ∧ ∀ p k,
      (u.argstr n).value = some (p, k) → u.IsString p k) ∧
    Within u.InSpace u.sysExec ∧ ∀ path argv, u.sysExec.value = some (path, argv) →
      u.ExecArgs path argv := by
  refine ⟨fun addr => ⟨(User.fetchint_spec hsz addr).1, fun w hw => ?_⟩,
    fun n size => User.argptr_spec hsz n size,
    fun addr => ⟨(u.fetchstr_spec addr).1, fun p k hpk => ?_⟩,
    fun n => ⟨(User.argstr_spec hsz n).1, fun p k hpk => ?_⟩,
    (User.sysExec_spec hsz).1, fun path argv hargs => ?_⟩
  · exact User.fetchint_eq_some hsz hw
  · obtain ⟨rfl, hstring⟩ := (u.fetchstr_spec addr).2 (p, k) hpk
    exact ⟨rfl, hstring⟩
  · exact (User.argstr_spec hsz n).2 (p, k) hpk
  · exact (User.sysExec_spec hsz).2 (path, argv) hargs

/-- A process that calls `exec` of `ls` with itself as the only argument: from the stack pointer on
its memory holds the return address, the two arguments, the vector and the path. -/
def execLs : User where
  sz := 4096
  esp := 0xFE0
  mem a := [0xFF, 0xFF, 0xFF, 0xFF, 0xF4, 0x0F, 0, 0, 0xEC, 0x0F, 0, 0, 0xF4, 0x0F, 0, 0,
    0, 0, 0, 0, 0x6C, 0x73, 0].getD (a.toNat - 0xFE0) 0

/-- The path and the argument are accepted. With a stack pointer far above the process, nothing
outside of it is read either. -/
theorem arguments_sound_ls : (∃ path argv, execLs.sysExec.value = some (path, argv) ∧
      path = 0xFF4 ∧ argv 0 = 0xFF4 ∧ execLs.ExecArgs path argv) ∧
    Within (User.InSpace { execLs with esp := 0xFFFFFFFC })
      (User.sysExec { execLs with esp := 0xFFFFFFFC }) := by
  have hvalue : (execLs.sysExec.value.map fun r => (r.1, r.2 0)) = some (0xFF4, 0xFF4) := by
    decide +kernel
  obtain ⟨⟨path, argv⟩, hargs, heq⟩ := Option.map_eq_some_iff.mp hvalue
  obtain ⟨hpath, hargv⟩ := Prod.mk.inj heq
  exact ⟨⟨path, argv, hargs, hpath, hargv,
    (arguments_sound execLs (by decide)).2.2.2.2.2 path argv hargs⟩,
    (arguments_sound { execLs with esp := 0xFFFFFFFC } (by decide)).2.2.2.2.1⟩

end Xv6.SyscallArgs
