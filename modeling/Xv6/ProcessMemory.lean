import Xv6.AddressSpace
import Xv6.Lib.GuardedRun
import Xv6.Lib.LittleEndian
import Xv6.Proc

/-!
# Processes and their memory

The process table together with physical memory: `kinit1`, `kvmalloc`, `startothers`, `kinit2`
and `userinit` at boot, and then any sequence of `fork`, `exec`, `growproc`, `exit`, `wait`,
`pipealloc` and `pipeclose`, with the scheduling of processes in between. Every call runs to its
end; the allocator hands out single pages under its own lock, and the rest of what a call
changes is private to the caller or to the child it creates or reaps.

`none` stands for a panic and for a page fault in the kernel. The null pointer that `uva2ka`
dereferences is no fault: the word at address 0 of the calling process is read, and where it names a
page of the kernel's page table or of another process, `memmove` writes there. A write to any other
page through such a word has no result here: the model does not have what is on the free list, on
the kernel stacks, in the pipes and in the memory of the caller.
-/

namespace Xv6.ProcessMemory

/-- `MAXARG`. -/
def maxArg : ℕ := 32

/-- `ELF_MAGIC`. -/
def elfMagic : ℕ := 0x464C457F

/-- `ELF_PROG_LOAD`. -/
def elfProgLoad : ℕ := 1

/-- A pipe: its page, and which ends are open. -/
structure PipePage where
  /-- The page, as `kalloc` returned it. -/
  page : ℕ
  /-- `readopen`. -/
  readopen : Bool
  /-- `writeopen`. -/
  writeopen : Bool
  deriving DecidableEq

/-- The kernel's memory. -/
structure State where
  /-- `ptable` with its variables. -/
  table : PTable
  /-- Physical memory. -/
  mem : Mem
  /-- `kpgdir`. -/
  kpgdir : ℕ
  /-- The stacks that `startothers` allocated. -/
  cpuStacks : List ℕ
  /-- The pipes. -/
  pipes : List PipePage

/-! ## Boot -/

/-- `startothers`: one stack for each of `n` other CPUs. The result of `kalloc` is not looked
at. -/
def startothers : ℕ → Mem → List ℕ × Mem
  | 0, m => ([], m)
  | n + 1, m =>
      match kalloc m with
      | (none, m) => startothers n m
      | (some stack, m) => (stack :: (startothers n m).1, (startothers n m).2)

/-- `userinit`, with the size of the first program and the result of `namei("/")`. If `allocproc`
or the `kalloc` of `inituvm` fails, a null pointer is dereferenced. -/
def userinit (img : KernelImage) (initcodeSize root : ℕ) (s : State) : Option State :=
  match s.table.allocprocFind with
  | none => none
  | some np =>
      match kalloc s.mem with
      | (none, _) => none
      | (some kstack, m) =>
          (setupkvm img m).bind fun (pgdir, m) =>
            match pgdir with
            | none => none
            | some pgdir =>
                (inituvm pgdir initcodeSize m).map fun m =>
                  { s with table := s.table.userinit np kstack pgdir root, mem := m }

/-- `main`, before `userinit`: the free memory below 4 megabytes, the kernel page table, the
stacks of the other CPUs and the rest of the free memory. `ram` is what memory holds when the
machine starts. -/
def mainInit (img : KernelImage) (ram : ℕ → Fin 1024 → Pte) (others : ℕ) : Option State :=
  (freerange img img.kend (p2v (4 * 1024 * 1024)) ⟨[], ram⟩).bind fun m =>
    (setupkvm img m).bind fun (kpgdir, m) =>
      match kpgdir with
      | none => none
      | some kpgdir =>
          (freerange img (p2v (4 * 1024 * 1024)) (p2v phystop) (startothers others m).2).map
            fun m' => ⟨.zero, m', kpgdir, (startothers others m).1, []⟩

/-- `main`, up to `mpmain`. -/
def boot (img : KernelImage) (ram : ℕ → Fin 1024 → Pte) (others initcodeSize root : ℕ) :
    Option State :=
  (mainInit img ram others).bind (userinit img initcodeSize root)

/-! ## `exec` -/

/-- `struct elfhdr`. -/
structure ElfHdr where
  /-- Must equal `ELF_MAGIC`. -/
  magic : UInt32
  /-- Where the program headers are. -/
  phoff : UInt32
  /-- How many there are. -/
  phnum : UInt16

/-- `struct proghdr`. -/
structure ProgHdr where
  /-- The kind of segment. -/
  type : UInt32
  /-- Where the segment is in the file. -/
  off : UInt32
  /-- Where it goes in memory. -/
  vaddr : UInt32
  /-- How much of it is in the file. -/
  filesz : UInt32
  /-- How much memory it takes. -/
  memsz : UInt32

/-- What `exec` reads of a file. -/
structure ExecFile where
  /-- The file header, unless `readi` returns less. -/
  elf : Option ElfHdr
  /-- The program header at an offset, unless `readi` returns less. -/
  ph : ℕ → Option ProgHdr
  /-- How many of `n` bytes at an offset `readi` returns. -/
  readi : ℕ → ℕ → ℕ

/-- The loop of `loaduvm`: whether it returns 0, and not -1. -/
def loaduvmFrom (m : Mem) (pgdir addr : ℕ) (readi : ℕ → ℕ → ℕ) (offset sz i : ℕ) : Option Bool :=
  if _h : i < sz then
    match walkpgdir m pgdir (addr + i) false with
    | (none, _) => none
    | (some _, _) =>
        let n := if sz - i < pgsize then sz - i else pgsize
        if readi ((offset + i) % 2 ^ 32) n ≠ n then some false
        else loaduvmFrom m pgdir addr readi offset sz (i + pgsize)
  else some true
termination_by sz - i
decreasing_by unfold pgsize; omega

/-- `loaduvm`. -/
def loaduvm (m : Mem) (pgdir addr : ℕ) (readi : ℕ → ℕ → ℕ) (offset sz : ℕ) : Option Bool :=
  if addr % pgsize ≠ 0 then none else loaduvmFrom m pgdir addr readi offset sz 0

/-- The loop of `exec` over the program headers: the size of the program, or nothing for
`goto bad`. -/
def execLoad (img : KernelImage) (file : ExecFile) (pgdir : ℕ) :
    ℕ → ℕ → ℕ → Mem → Option (Option ℕ × Mem)
  | 0, _, sz, m => some (some sz, m)
  | n + 1, off, sz, m =>
      match file.ph off with
      | none => some (none, m)
      | some ph =>
          if ph.type.toNat ≠ elfProgLoad then
            execLoad img file pgdir n ((off + 32) % 2 ^ 32) sz m
          else if ph.memsz < ph.filesz then some (none, m)
          else if ph.vaddr + ph.memsz < ph.vaddr then some (none, m)
          else
            (allocuvm img pgdir sz (ph.vaddr + ph.memsz).toNat m).bind fun (sz, m) =>
              if sz = 0 then some (none, m)
              else if ph.vaddr.toNat % pgsize ≠ 0 then some (none, m)
              else
                (loaduvm m pgdir ph.vaddr.toNat file.readi ph.off.toNat ph.filesz.toNat).bind
                  fun ok =>
                    if ok then execLoad img file pgdir n ((off + 32) % 2 ^ 32) sz m
                    else some (none, m)

/-- The words of a page after bytes have been written at an offset. -/
def patch (ws : Fin 1024 → Pte) (off : ℕ) (p : List UInt8) : Fin 1024 → Pte := fun k =>
  let old := fun a => LittleEndian.digits (ws (wordIndex a)).word (a % 4)
  .ofWord (LittleEndian.get (LittleEndian.copy old off p.length fun a => p.getD a 0) (4 * k) 4)

/-- A page of the kernel's page table, or of a process other than `cur`. -/
def Elsewhere (s : State) (cur : Slot) (m : Mem) (f : ℕ) : Prop :=
  f ∈ dirPages m.page s.kpgdir ∨
    ∃ i, i ≠ cur ∧ (s.table.proc i).state ≠ .unused ∧ f ∈ dirPages m.page (s.table.proc i).pgdir

instance (s : State) (cur : Slot) (m : Mem) (f : ℕ) : Decidable (Elsewhere s cur m f) :=
  inferInstanceAs (Decidable (_ ∨ _))

/-- `copyout` for `exec`: whether it returns 0, and not -1. What is copied to user pages changes no
page table. For an absent page table `uva2ka` takes the word at address 0 for the entry, unless
reading it faults. -/
def copyout (s : State) (cur : Slot) (zero : Option Pte) (pgdir va : ℕ) (p : List UInt8) (m : Mem) :
    Option (Bool × Mem) :=
  if _h : 0 < p.length then
    let va0 := pgrounddown va
    let n := (pgsize - (va - va0)) ⊓ p.length
    match uva2ka m pgdir va0 with
    | some pa0 =>
        if pa0.getD 0 = 0 then some (false, m)
        else copyout s cur zero pgdir ((va0 + pgsize) % 2 ^ 32) (p.drop n) m
    | none =>
        match zero with
        | none => none
        | some pte =>
            if !pte.p || !pte.u || p2v pte.addr = 0 then some (false, m)
            else if Elsewhere s cur m (p2v pte.addr) then
              copyout s cur zero pgdir ((va0 + pgsize) % 2 ^ 32) (p.drop n)
                (m.write (p2v pte.addr) (patch (m.page (p2v pte.addr)) (va - va0) (p.take n)))
            else none
  else some (true, m)
termination_by p.length
decreasing_by all_goals
  simp only [List.length_drop]
  unfold pgrounddown pgsize
  omega

/-- The bytes of a word. -/
def wordBytes (x : ℕ) : List UInt8 :=
  [.ofNat x, .ofNat (x / 256), .ofNat (x / 256 ^ 2), .ofNat (x / 256 ^ 3)]

/-- The bytes of an array of words. -/
def words (xs : List ℕ) : List UInt8 := xs.flatMap wordBytes

/-- The loop of `exec` that pushes the argument strings: the stack pointer and the pointers to
the strings, or nothing for `goto bad`. -/
def pushArgs (s : State) (cur : Slot) (zero : Option Pte) (pgdir : ℕ) :
    List (List UInt8) → ℕ → ℕ → Mem → Option (Option (ℕ × List ℕ) × Mem)
  | [], _, sp, m => some (some (sp, []), m)
  | arg :: argv, argc, sp, m =>
      if argc ≥ maxArg then some (none, m)
      else
        let sp := wrapUint ((sp : ℤ) - (arg.length + 1)) / 4 * 4
        (copyout s cur zero pgdir sp (arg ++ [0]) m).bind fun (ok, m) =>
          if ok then
            (pushArgs s cur zero pgdir argv (argc + 1) sp m).map fun (res, m) =>
              (res.map fun (top, ptrs) => (top, sp :: ptrs), m)
          else some (none, m)

/-- The user stack of `exec`, at the next page boundary after `sz`: a page that the program cannot
use, and above it the stack with the arguments. -/
def execStack (img : KernelImage) (s : State) (cur : Slot) (zero : Option Pte) (pgdir sz : ℕ)
    (argv : List (List UInt8)) (m : Mem) : Option (Option ℕ × Mem) :=
  (allocuvm img pgdir (pgroundup sz) ((pgroundup sz + 2 * pgsize) % 2 ^ 32) m).bind fun (sz, m) =>
    if sz = 0 then some (none, m)
    else
      (clearpteu pgdir (sz - 2 * pgsize) m).bind fun m =>
        (pushArgs s cur zero pgdir argv 0 sz m).bind fun (res, m) =>
          match res with
          | none => some (none, m)
          | some (sp, ptrs) =>
              let argc := ptrs.length
              let ustack := [0xffffffff, argc, wrapUint ((sp : ℤ) - (argc + 1) * 4)] ++ ptrs ++ [0]
              let sp := wrapUint ((sp : ℤ) - (3 + argc + 1) * 4)
              (copyout s cur zero pgdir sp (words ustack) m).map fun (ok, m) =>
                if ok then (some sz, m) else (none, m)

/-- `exec` between `setupkvm` and the commit: the size of the new image, or nothing for
`goto bad`. -/
def execImage (img : KernelImage) (s : State) (cur : Slot) (zero : Option Pte) (file : ExecFile)
    (elf : ElfHdr) (pgdir : ℕ) (argv : List (List UInt8)) (m : Mem) : Option (Option ℕ × Mem) :=
  (execLoad img file pgdir elf.phnum.toNat elf.phoff.toNat 0 m).bind fun (r, m) =>
    match r with
    | none => some (none, m)
    | some sz => execStack img s cur zero pgdir sz argv m

/-- The program name that `exec` saves: the last element of the path, cut to 15 characters. -/
def programName (path : String) : String :=
  String.ofList ((path.toList.reverse.takeWhile (· ≠ '/')).reverse.take 15)

/-- `exec`: the return value and the new state. The file is what `namei` finds, and `zero` is the
word at address 0 of the caller, unless reading it faults. -/
def exec (img : KernelImage) (s : State) (cur : Slot) (zero : Option Pte) (path : String)
    (file : Option ExecFile) (argv : List (List UInt8)) : Option (ℤ × State) :=
  match file with
  | none => some (-1, s)
  | some file =>
      match file.elf with
      | none => some (-1, s)
      | some elf =>
          if elf.magic.toNat ≠ elfMagic then some (-1, s)
          else
            (setupkvm img s.mem).bind fun (pgdir, m) =>
              match pgdir with
              | none => some (-1, { s with mem := m })
              | some pgdir =>
                  (execImage img s cur zero file elf pgdir argv m).bind fun (r, m) =>
                    match r with
                    | none => (freevm img pgdir m).map fun m => (-1, { s with mem := m })
                    | some sz =>
                        (freevm img (s.table.proc cur).pgdir m).map fun m =>
                          (0, { s with
                            mem := m
                            table := s.table.modify cur fun p =>
                              { p with name := programName path, pgdir := pgdir, sz := sz } })

/-! ## The other calls -/

/-- `growproc`: the return value and the new state. -/
def growproc (img : KernelImage) (s : State) (cur : Slot) (n : ℤ) : Option (ℤ × State) :=
  let p := s.table.proc cur
  let commit := fun (sz : ℕ) (m : Mem) =>
    ((0 : ℤ), { s with mem := m, table := s.table.modify cur fun p => { p with sz := sz } })
  if n > 0 then
    (allocuvm img p.pgdir p.sz (wrapUint (p.sz + n)) s.mem).map fun (sz, m) =>
      if sz = 0 then (-1, { s with mem := m }) else commit sz m
  else if n < 0 then
    (deallocuvm img p.pgdir p.sz (wrapUint (p.sz + n)) s.mem).map fun (sz, m) =>
      if sz = 0 then (-1, { s with mem := m }) else commit sz m
  else some (commit p.sz s.mem)

/-- `fork`: the return value and the new state. -/
def fork (img : KernelImage) (s : State) (cur : Slot) : Option (ℤ × State) :=
  match s.table.allocprocFind with
  | none => some (-1, s)
  | some np =>
      let t := s.table.allocprocEmbryo np
      match kalloc s.mem with
      | (none, m) => some (-1, { s with table := t.allocprocFail np, mem := m })
      | (some kstack, m) =>
          let t := t.allocprocInit np kstack
          (copyuvm img (t.proc cur).pgdir (t.proc cur).sz m).bind fun (pgdir, m) =>
            match pgdir with
            | none =>
                (kfree img m kstack).map fun m =>
                  (-1, { s with table := t.forkFail np, mem := m })
            | some pgdir =>
                let t := t.forkCopy cur np pgdir
                some ((t.proc np).pid, { s with table := t.forkRunnable np, mem := m })

/-- `exit`; init panics. -/
def exit (s : State) (cur : Slot) : Option State :=
  if s.table.initproc = some cur then none else some { s with table := s.table.exit cur }

/-- The child that a scan of `wait` stops at. -/
def zombieChild (t : PTable) (cur : Slot) : Option Slot :=
  t.findSlot fun p => p.parent == some cur && p.state == .zombie

/-- `wait`, one scan; the memory of the child it finds is freed. -/
def wait (img : KernelImage) (s : State) (cur : Slot) : Option State :=
  match zombieChild s.table cur with
  | some i =>
      (kfree img s.mem (s.table.proc i).kstack).bind fun m =>
        (freevm img (s.table.proc i).pgdir m).map fun m =>
          match s.table.wait cur with
          | .reaped _ t => { s with table := t, mem := m }
          | .fail => { s with mem := m }
          | .sleeps t => { s with table := t, mem := m }
  | none =>
      match s.table.wait cur with
      | .reaped _ t => some { s with table := t }
      | .fail => some s
      | .sleeps t => some { s with table := t }

/-- `pipealloc`; `files` says whether `filealloc` finds two free files. The memory is not touched
if it does not, and a failed `kalloc` leaves no page to free. -/
def pipealloc (s : State) (files : Bool) : State :=
  if files then
    match kalloc s.mem with
    | (none, m) => { s with mem := m }
    | (some p, m) => { s with mem := m, pipes := ⟨p, true, true⟩ :: s.pipes }
  else s

/-- `pipeclose` of one end of a pipe. -/
def pipeclose (img : KernelImage) (s : State) (p : PipePage) (writable : Bool) : Option State :=
  let p' := if writable then { p with writeopen := false } else { p with readopen := false }
  if p'.readopen = false ∧ p'.writeopen = false then
    (kfree img s.mem p.page).map fun m => { s with mem := m, pipes := s.pipes.erase p }
  else some { s with pipes := p' :: s.pipes.erase p }

/-! ## The system -/

/-- The steps; `cur` is the running process that makes the call. -/
inductive Action
  /-- `fork`. -/
  | fork (cur : Slot)
  /-- `exec`, with the file that `namei` finds, the argument strings and the word that the process
  has stored at address 0. -/
  | exec (cur : Slot) (path : String) (file : Option ExecFile) (argv : List (List UInt8))
      (word : Pte)
  /-- `sbrk`, that is `growproc`. -/
  | growproc (cur : Slot) (n : ℤ)
  /-- `exit`. -/
  | exit (cur : Slot)
  /-- `wait`, one scan. -/
  | wait (cur : Slot)
  /-- `pipealloc`. -/
  | pipealloc (files : Bool)
  /-- `pipeclose`, by `fileclose` when the last reference to an end is gone. -/
  | pipeclose (p : PipePage) (writable : Bool)
  /-- `kill`. -/
  | kill (pid : ℤ)
  /-- `scheduler` chooses a process. -/
  | dispatch (i : Slot)
  /-- `yield`. -/
  | yield (i : Slot)
  /-- `sleep`, from anywhere in the kernel. -/
  | sleep (i : Slot) (chan : Chan)
  /-- `sleep`, after `sched` has returned. -/
  | resume (i : Slot)
  /-- `wakeup`. -/
  | wakeup (chan : Chan)
  /-- The timer advances `ticks`. -/
  | tick

/-- When a step may be taken. -/
def Enabled (s : State) : Action → Prop
  | .fork cur | .exec cur _ _ _ _ | .exit cur | .wait cur => (s.table.proc cur).state = .running
  -- `n` is an `int`
  | .growproc cur n =>
      (s.table.proc cur).state = .running ∧ -(2 ^ 31) ≤ n ∧ n ≤ intMax
  | .pipeclose p writable =>
      p ∈ s.pipes ∧ (if writable then p.writeopen else p.readopen) = true
  | .dispatch i => (s.table.proc i).state = .runnable
  | .yield i | .sleep i _ | .resume i => (s.table.proc i).state = .running
  | .pipealloc _ | .kill _ | .wakeup _ | .tick => True

instance (s : State) : ∀ a, Decidable (Enabled s a)
  | .fork _ | .exec _ _ _ _ _ | .exit _ | .wait _ | .dispatch _ | .yield _ | .sleep _ _
  | .resume _ => inferInstanceAs (Decidable (_ = _))
  | .growproc _ _ | .pipeclose _ _ => inferInstanceAs (Decidable (_ ∧ _))
  | .pipealloc _ | .kill _ | .wakeup _ | .tick => isTrue trivial

/-- What the kernel reads at address 0 of a process that has stored the word there; nothing if the
address is not mapped. -/
def zeroWord (s : State) (cur : Slot) (word : Pte) : Option Pte :=
  if Mapped s.mem.page (s.table.proc cur).pgdir 0 then some word else none

/-- The state after a step, if the kernel does not panic. -/
def effect (img : KernelImage) (s : State) : Action → Option State
  | .fork cur => (fork img s cur).map (·.2)
  | .exec cur path file argv word =>
      (exec img s cur (zeroWord s cur word) path file argv).map (·.2)
  | .growproc cur n => (growproc img s cur n).map (·.2)
  | .exit cur => exit s cur
  | .wait cur => wait img s cur
  | .pipealloc files => some (pipealloc s files)
  | .pipeclose p writable => pipeclose img s p writable
  | .kill pid => some { s with table := (s.table.kill pid).2 }
  | .dispatch i => some { s with table := s.table.dispatch i }
  | .yield i => some { s with table := s.table.yield i }
  | .sleep i chan => some { s with table := s.table.sleep i (some chan) }
  | .resume i => some { s with table := s.table.sleepReturn i }
  | .wakeup chan => some { s with table := s.table.wakeup1 (some chan) }
  | .tick => some { s with table := { s.table with ticks := wrapUint (s.table.ticks + 1) } }

/-- One step. -/
def step (img : KernelImage) (s : State) (a : Action) : Option State :=
  if Enabled s a then effect img s a else none

theorem step_eq_some {img : KernelImage} {s s' : State} {a : Action} :
    step img s a = some s' ↔ Enabled s a ∧ effect img s a = some s' := by
  simp [step]

end Xv6.ProcessMemory
