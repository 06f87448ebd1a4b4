import Mathlib

/-!
# Kernel parameters and system-call numbers

The constants of `param.h` that the modelled code uses, 32-bit signed arithmetic, and the
numbering of the system calls: `syscall.h`, the dispatch table of `syscall.c` and the
names of `get_syscall_name.c`.
-/

namespace Xv6

/-- `NPROC`: the maximum number of processes. -/
def nproc : ℕ := 64

/-- `KSTACKSIZE`: the size of a kernel stack in bytes. -/
def kstackSize : ℕ := 4096

/-- `NOFILE`: the number of open files of a process. -/
def nofile : ℕ := 16

/-- `MAXOPBLOCKS`: the most blocks a file-system operation writes. -/
def maxOpBlocks : ℕ := 10

/-- `LOGSIZE`: the data blocks of the on-disk log, as `param.h` describes it. -/
def logSize : ℕ := maxOpBlocks * 3

/-- `RSCOUNTMAX`: the entries of the system-call history. -/
def rsCountMax : ℕ := 100

/-- `MAXSYSCALL`: the entries of a process's system-call counters. -/
def maxSyscall : ℕ := 23

/-- `INT_MAX` of the 32-bit target. -/
def intMax : ℤ := 2 ^ 31 - 1

/-- The value a 32-bit `int` holds after an arithmetic operation with result `x`. -/
def wrapInt (x : ℤ) : ℤ := x.bmod (2 ^ 32)

/-- The value a 32-bit `uint` holds after an arithmetic operation with result `x`. -/
def wrapUint (x : ℤ) : ℕ := (x % 2 ^ 32).toNat

/-- Results in the range of `int` are not changed. -/
theorem wrapInt_of_mem {x : ℤ} (hlo : -(2 ^ 31) ≤ x) (hhi : x ≤ intMax) : wrapInt x = x := by
  unfold wrapInt
  unfold intMax at hhi
  rw [Int.bmod_def]
  norm_num at *
  omega

/-- Incrementing an `int` that is not `INT_MAX` does not wrap. -/
theorem wrapInt_succ {x : ℤ} (hlo : 0 ≤ x) (hhi : x < intMax) : wrapInt (x + 1) = x + 1 :=
  wrapInt_of_mem (by omega) (by omega)

/-- `wrapInt` keeps only the residue of its argument, so wrapping early or late is the same. -/
theorem wrapInt_add_wrapInt (x y : ℤ) : wrapInt (wrapInt x + y) = wrapInt (x + y) := by
  unfold wrapInt
  exact Int.bmod_add_bmod

/-- `NELEM(syscalls)`: the dispatch table is indexed by the numbers of `syscall.h`, of which
`SYS_log_syscalls = 23` is the largest; entry 0 is null. -/
def nelemSyscalls : ℕ := 24

/-- `SYS_fork`. -/
def sysFork : ℕ := 1

/-- `SYS_read`. -/
def sysRead : ℕ := 5

/-- `SYS_getpid`. -/
def sysGetpid : ℕ := 11

/-- `SYS_log_syscalls`. -/
def sysLogSyscalls : ℕ := 23

/-- The test of `syscall()` under which a number is dispatched. -/
def Dispatchable (num : ℕ) : Prop := 0 < num ∧ num < nelemSyscalls

instance (num : ℕ) : Decidable (Dispatchable num) := inferInstanceAs (Decidable (_ ∧ _))

/-- `getName`; the default branch panics. -/
def getName : ℕ → Option String
  | 1 => some "fork"
  | 2 => some "exit"
  | 3 => some "wait"
  | 4 => some "pipe"
  | 5 => some "read"
  | 6 => some "kill"
  | 7 => some "exec"
  | 8 => some "fstat"
  | 9 => some "chdir"
  | 10 => some "dup"
  | 11 => some "getpid"
  | 12 => some "sbrk"
  | 13 => some "sleep"
  | 14 => some "uptime"
  | 15 => some "open"
  | 16 => some "write"
  | 17 => some "mknod"
  | 18 => some "unlink"
  | 19 => some "link"
  | 20 => some "mkdir"
  | 21 => some "close"
  | 22 => some "invoked_syscalls"
  | 23 => some "log_syscalls"
  | _ => none

/-- The numbers `syscall()` dispatches are those `getName` knows, so its panic is never
reached from `syscall()`. -/
theorem dispatchable_iff_getName (num : ℕ) : Dispatchable num ↔ (getName num).isSome := by
  unfold Dispatchable nelemSyscalls
  by_cases hnum : num < 24
  · interval_cases num <;> simp [getName]
  · have hnone : getName num = none := by
      unfold getName
      split <;> first | omega | rfl
    simp [hnone, hnum]

end Xv6
