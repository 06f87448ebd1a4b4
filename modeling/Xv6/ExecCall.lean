import Xv6.ForkMemory
import Xv6.Lib.LittleEndian

/-!
# The system call `exec`

`exec` with all that it changes: the memory, the caller's page directory, size, trap frame and
name, and the calls that take and release the inode and the log. The file is the array of its
bytes, and the headers are read out of it.
-/

namespace Xv6.Ram

open PageStore ProcessMemory

/-! ## Lookups that fail -/

/-- `copyout`. If `lenient`, a lookup in an absent page table counts as a failure; if not, the
null pointer is dereferenced. -/
def copyoutWith (lenient : Bool) (r : Ram) (pgdir va : ℕ) (p : List UInt8) :
    Option (Bool × Ram) :=
  if _h : 0 < p.length then
    ((uva2ka r.mem pgdir (pgrounddown va)).or (if lenient then some none else none)).bind fun pa0 =>
      if pa0.getD 0 = 0 then some (false, r)
      else
        let n := (pgsize - (va - pgrounddown va)) ⊓ p.length
        (r.store (pa0.getD 0 + (va - pgrounddown va)) (p.take n)).copyoutWith lenient pgdir
          ((pgrounddown va + pgsize) % 2 ^ 32) (p.drop n)
  else some (true, r)
termination_by p.length
decreasing_by
  simp only [List.length_drop]
  unfold pgrounddown pgsize
  omega

/-- The loop of `exec` that pushes the argument strings. -/
def pushArgsWith (lenient : Bool) (pgdir : ℕ) :
    List (List UInt8) → ℕ → ℕ → Ram → Option (Option (ℕ × List ℕ) × Ram)
  | [], _, sp, r => some (some (sp, []), r)
  | s :: argv, argc, sp, r =>
      if argc ≥ maxArg then some (none, r)
      else
        let sp := wrapUint ((sp : ℤ) - (s.length + 1)) / 4 * 4
        (r.copyoutWith lenient pgdir sp (s ++ [0])).bind fun (ok, r) =>
          if ok then
            (pushArgsWith lenient pgdir argv (argc + 1) sp r).map fun (res, r) =>
              (res.map fun (top, ptrs) => (top, sp :: ptrs), r)
          else some (none, r)

/-- The user stack of `exec`. -/
def execStackWith (lenient : Bool) (img : KernelImage) (pgdir sz : ℕ) (argv : List (List UInt8))
    (r : Ram) : Option (Option (ℕ × ℕ) × Ram) :=
  (r.allocuvm img pgdir (pgroundup sz) ((pgroundup sz + 2 * pgsize) % 2 ^ 32)).bind fun (sz, r) =>
    if sz = 0 then some (none, r)
    else
      (r.clearpteu pgdir (sz - 2 * pgsize)).bind fun r =>
        (r.pushArgsWith lenient pgdir argv 0 sz).bind fun (res, r) =>
          match res with
          | none => some (none, r)
          | some (sp, ptrs) =>
              let argc := ptrs.length
              let ustack := [0xffffffff, argc, wrapUint ((sp : ℤ) - (argc + 1) * 4)] ++ ptrs ++ [0]
              let sp := wrapUint ((sp : ℤ) - (3 + argc + 1) * 4)
              (r.copyoutWith lenient pgdir sp (words ustack)).map fun (ok, r) =>
                if ok then (some (sz, sp), r) else (none, r)

/-! ## Files -/

/-- What `readi` copies of a file with the contents `c` when it is asked for `n` bytes at `off`;
nothing if it returns -1. -/
def fileRead (c : List UInt8) (off n : ℕ) : List UInt8 :=
  if c.length < off ∨ 2 ^ 32 ≤ off + n then [] else (c.drop off).take n

/-- A 32-bit word at an offset of a structure. -/
def wordAt (b : List UInt8) (i : ℕ) : UInt32 := .ofNat (LittleEndian.get (fun k => b.getD k 0) i 4)

/-- A 16-bit word at an offset of a structure. -/
def halfAt (b : List UInt8) (i : ℕ) : UInt16 := .ofNat (LittleEndian.get (fun k => b.getD k 0) i 2)

/-- The headers and the contents of a file. -/
def executable (c : List UInt8) : Executable where
  elf :=
    let b := fileRead c 0 52
    if b.length = 52 then some ⟨wordAt b 0, wordAt b 28, halfAt b 44⟩ else none
  ph off :=
    let b := fileRead c off 32
    if b.length = 32 then
      some ⟨wordAt b 0, wordAt b 4, wordAt b 8, wordAt b 16, wordAt b 20⟩
    else none
  readi := fileRead c

/-- `elf.entry`. -/
def elfEntry (c : List UInt8) : UInt32 := wordAt (fileRead c 0 52) 24

/-! ## The caller -/

/-- The registers of the caller in its trap frame. -/
structure Trapframe (ρ : Type) where
  /-- `eip`. -/
  eip : ℕ
  /-- `esp`. -/
  esp : ℕ
  /-- The other registers. -/
  regs : ρ

/-- What `exec` changes of `struct proc`. -/
structure Caller (ρ : Type) where
  /-- `pgdir`. -/
  pgdir : ℕ
  /-- `sz`. -/
  sz : ℕ
  /-- `tf`. -/
  tf : Trapframe ρ
  /-- `name`. -/
  name : List UInt8

/-- The calls of `exec` that take or release something, with the one inode it has. -/
inductive FsCall where
  /-- `begin_op()`. -/
  | beginOp
  /-- `end_op()`. -/
  | endOp
  /-- `namei(path)`. -/
  | namei
  /-- `ilock(ip)`. -/
  | ilock
  /-- `iunlockput(ip)`. -/
  | iunlockput
  deriving DecidableEq

/-- The state of `exec`. -/
structure ExecState (ρ : Type) where
  /-- The memory. -/
  ram : Ram
  /-- `curproc`. -/
  proc : Caller ρ
  /-- The calls made, the first one first. -/
  calls : List FsCall

variable {ρ : Type}

/-- Make a call. -/
def ExecState.call (s : ExecState ρ) (c : FsCall) : ExecState ρ :=
  { s with calls := s.calls ++ [c] }

/-- `iunlockput(ip); end_op();`. -/
def ExecState.release (s : ExecState ρ) : ExecState ρ := (s.call .iunlockput).call .endOp

/-- The last component of a path: what follows the last slash. -/
def lastName (path : List UInt8) : List UInt8 :=
  (path.reverse.takeWhile fun c => c ≠ 47).reverse

/-- `safestrcpy(s, t, n)`, on an array `s`. -/
def safestrcpy (s t : List UInt8) (n : ℕ) : List UInt8 :=
  t.take (n - 1) ++ 0 :: s.drop ((t.take (n - 1)).length + 1)

/-- `exec`, given the contents of the file that `namei` finds. -/
def execCall (img : KernelImage) (lenient : Bool) (file : Option (List UInt8)) (path : List UInt8)
    (argv : List (List UInt8)) (s : ExecState ρ) : Option (ℤ × ExecState ρ) :=
  let s := (s.call .beginOp).call .namei
  match file with
  | none => some (-1, s.call .endOp)
  | some c =>
      let s := s.call .ilock
      match (executable c).elf with
      | none => some (-1, s.release)
      | some elf =>
          if elf.magic.toNat ≠ elfMagic then some (-1, s.release)
          else
            (s.ram.setupkvm img).bind fun (pgdir, r) =>
              match pgdir with
              | none => some (-1, { s with ram := r }.release)
              | some pgdir =>
                  (execLoad img (executable c) pgdir elf.phnum.toNat elf.phoff.toNat 0 r).bind
                    fun (res, r) =>
                      match res with
                      | none =>
                          (r.freevm img pgdir).map fun r => (-1, { s with ram := r }.release)
                      | some sz =>
                          let s := s.release
                          (r.execStackWith lenient img pgdir sz argv).bind fun (res, r) =>
                            match res with
                            | none => (r.freevm img pgdir).map fun r => (-1, { s with ram := r })
                            | some (sz, sp) =>
                                let name := safestrcpy s.proc.name (lastName path) 16
                                let tf := { s.proc.tf with eip := (elfEntry c).toNat, esp := sp }
                                (r.freevm img s.proc.pgdir).map fun r =>
                                  (0, { s with ram := r, proc := ⟨pgdir, sz, tf, name⟩ })

end Xv6.Ram
