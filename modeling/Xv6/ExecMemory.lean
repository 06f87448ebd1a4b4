import Xv6.GrowProcess

/-!
# The contents of a new image

`exec` and what it calls, with the bytes they write: the segments of the program, the argument
strings and the words under them on the user stack. Forgetting the bytes gives the page tables
of `ProcessMemory.lean` back.
-/

namespace Xv6.Ram

open PageStore ProcessMemory

/-! ## Address spaces -/

/-- The loop of `freevm` over the page directory. -/
def freevmTables (img : KernelImage) (pgdir : ℕ) : List (Fin 1024) → Ram → Option Ram
  | [], r => some r
  | i :: is, r =>
      if (r.mem.page pgdir i).p then
        (r.kfree img (p2v (r.mem.page pgdir i).addr)).bind (freevmTables img pgdir is)
      else freevmTables img pgdir is r

/-- `freevm`. -/
def freevm (img : KernelImage) (pgdir : ℕ) (r : Ram) : Option Ram :=
  (r.deallocuvm img pgdir kernbase 0).bind fun (_, r) =>
    (freevmTables img pgdir (List.finRange 1024) r).bind fun r => r.kfree img pgdir

/-- The loop of `setupkvm` over `kmap`. -/
def setupkvmMap (img : KernelImage) (pgdir : ℕ) : List Kmap → Ram → Option (Option ℕ × Ram)
  | [], r => some (some pgdir, r)
  | k :: ks, r =>
      (mappages pgdir k.virt (wrapUint ((k.physEnd : ℤ) - k.physStart)) k.physStart k.perm r).bind
        fun (ok, r) =>
          if ok then setupkvmMap img pgdir ks r
          else (r.freevm img pgdir).map fun r => (none, r)

/-- `setupkvm`. -/
def setupkvm (img : KernelImage) (r : Ram) : Option (Option ℕ × Ram) :=
  match r.kalloc with
  | (none, r) => some (none, r)
  | (some pgdir, r) =>
      if p2v phystop > devspace then none
      else setupkvmMap img pgdir (kmap img) { r with mem := clearPage r.mem pgdir }

/-- `clearpteu`. -/
def clearpteu (pgdir uva : ℕ) (r : Ram) : Option Ram :=
  (Xv6.clearpteu pgdir uva r.mem).map fun m => { r with mem := m }

/-! ## `exec` -/

/-- What `exec` reads of a file, with the bytes. -/
structure Executable where
  /-- The file header, unless `readi` returns less. -/
  elf : Option ElfHdr
  /-- The program header at an offset, unless `readi` returns less. -/
  ph : ℕ → Option ProgHdr
  /-- The bytes that `readi` copies when it is asked for `n` bytes at an offset. -/
  readi : ℕ → ℕ → List UInt8

/-- The file without its bytes. -/
def Executable.counts (file : Executable) : ExecFile :=
  ⟨file.elf, file.ph, fun off n => (file.readi off n).length⟩

/-- The loop of `loaduvm`: whether it returns 0, and not -1. -/
def loaduvmFrom (pgdir addr : ℕ) (readi : ℕ → ℕ → List UInt8) (offset sz i : ℕ) (r : Ram) :
    Option (Bool × Ram) :=
  if _h : i < sz then
    match walkpgdir r.mem pgdir (addr + i) false with
    | (none, _) => none
    | (some (pgtab, j), _) =>
        let n := if sz - i < pgsize then sz - i else pgsize
        let data := readi ((offset + i) % 2 ^ 32) n
        let r := r.store (p2v (r.mem.page pgtab j).addr) data
        if data.length ≠ n then some (false, r)
        else loaduvmFrom pgdir addr readi offset sz (i + pgsize) r
  else some (true, r)
termination_by sz - i
decreasing_by unfold pgsize; omega

/-- `loaduvm`. -/
def loaduvm (pgdir addr : ℕ) (readi : ℕ → ℕ → List UInt8) (offset sz : ℕ) (r : Ram) :
    Option (Bool × Ram) :=
  if addr % pgsize ≠ 0 then none else loaduvmFrom pgdir addr readi offset sz 0 r

/-- The loop of `exec` over the program headers: the size of the program, or nothing for
`goto bad`. -/
def execLoad (img : KernelImage) (file : Executable) (pgdir : ℕ) :
    ℕ → ℕ → ℕ → Ram → Option (Option ℕ × Ram)
  | 0, _, sz, r => some (some sz, r)
  | n + 1, off, sz, r =>
      match file.ph off with
      | none => some (none, r)
      | some ph =>
          if ph.type.toNat ≠ elfProgLoad then
            execLoad img file pgdir n ((off + 32) % 2 ^ 32) sz r
          else if ph.memsz < ph.filesz then some (none, r)
          else if ph.vaddr + ph.memsz < ph.vaddr then some (none, r)
          else
            (r.allocuvm img pgdir sz (ph.vaddr + ph.memsz).toNat).bind fun (sz, r) =>
              if sz = 0 then some (none, r)
              else if ph.vaddr.toNat % pgsize ≠ 0 then some (none, r)
              else
                (loaduvm pgdir ph.vaddr.toNat file.readi ph.off.toNat ph.filesz.toNat r).bind
                  fun (ok, r) =>
                    if ok then execLoad img file pgdir n ((off + 32) % 2 ^ 32) sz r
                    else some (none, r)

/-- The loop of `exec` that pushes the argument strings: the stack pointer and the pointers to
the strings, or nothing for `goto bad`. -/
def pushArgs (pgdir : ℕ) :
    List (List UInt8) → ℕ → ℕ → Ram → Option (Option (ℕ × List ℕ) × Ram)
  | [], _, sp, r => some (some (sp, []), r)
  | s :: argv, argc, sp, r =>
      if argc ≥ maxArg then some (none, r)
      else
        let sp := wrapUint ((sp : ℤ) - (s.length + 1)) / 4 * 4
        (r.copyout pgdir sp (s ++ [0])).bind fun (ok, r) =>
          if ok then
            (pushArgs pgdir argv (argc + 1) sp r).map fun (res, r) =>
              (res.map fun (top, ptrs) => (top, sp :: ptrs), r)
          else some (none, r)

/-- The user stack of `exec`, at the next page boundary after `sz`: a page that the program cannot
use, and above it the stack with the arguments. It returns the size and the stack pointer. -/
def execStack (img : KernelImage) (pgdir sz : ℕ) (argv : List (List UInt8)) (r : Ram) :
    Option (Option (ℕ × ℕ) × Ram) :=
  (r.allocuvm img pgdir (pgroundup sz) ((pgroundup sz + 2 * pgsize) % 2 ^ 32)).bind fun (sz, r) =>
    if sz = 0 then some (none, r)
    else
      (r.clearpteu pgdir (sz - 2 * pgsize)).bind fun r =>
        (r.pushArgs pgdir argv 0 sz).bind fun (res, r) =>
          match res with
          | none => some (none, r)
          | some (sp, ptrs) =>
              let argc := ptrs.length
              let ustack := [0xffffffff, argc, wrapUint ((sp : ℤ) - (argc + 1) * 4)] ++ ptrs ++ [0]
              let sp := wrapUint ((sp : ℤ) - (3 + argc + 1) * 4)
              (r.copyout pgdir sp (words ustack)).map fun (ok, r) =>
                if ok then (some (sz, sp), r) else (none, r)

/-- `exec` between `setupkvm` and the commit: the size and the stack pointer of the new image, or
nothing for `goto bad`. -/
def execImage (img : KernelImage) (file : Executable) (elf : ElfHdr) (pgdir : ℕ)
    (argv : List (List UInt8)) (r : Ram) : Option (Option (ℕ × ℕ) × Ram) :=
  (execLoad img file pgdir elf.phnum.toNat elf.phoff.toNat 0 r).bind fun (res, r) =>
    match res with
    | none => some (none, r)
    | some sz => execStack img pgdir sz argv r

/-- `exec`, given what `namei` finds and the page directory of the caller: the page directory,
the size and the stack pointer that the caller goes on with, or nothing if `exec` returns -1. -/
def exec (img : KernelImage) (file : Option Executable) (argv : List (List UInt8))
    (oldpgdir : ℕ) (r : Ram) : Option (Option (ℕ × ℕ × ℕ) × Ram) :=
  match file with
  | none => some (none, r)
  | some file =>
      match file.elf with
      | none => some (none, r)
      | some elf =>
          if elf.magic.toNat ≠ elfMagic then some (none, r)
          else
            (r.setupkvm img).bind fun (pgdir, r) =>
              match pgdir with
              | none => some (none, r)
              | some pgdir =>
                  (execImage img file elf pgdir argv r).bind fun (res, r) =>
                    match res with
                    | none => (r.freevm img pgdir).map fun r => (none, r)
                    | some (sz, sp) =>
                        (r.freevm img oldpgdir).map fun r => (some (pgdir, sz, sp), r)

/-! ## Forgetting the bytes -/

variable {img : KernelImage}

theorem freevmTables_mem (r : Ram) (d : ℕ) (is : List (Fin 1024)) :
    (freevmTables img d is r).map mem = Xv6.freevmTables img d is r.mem := by
  induction is generalizing r with
  | nil => rfl
  | cons i is ih =>
    rw [freevmTables, Xv6.freevmTables]
    split_ifs
    · rw [← kfree_mem]
      cases r.kfree img (p2v (r.mem.page d i).addr) with
      | none => rfl
      | some r₁ => exact ih r₁
    · exact ih r

theorem freevm_mem (r : Ram) (d : ℕ) : (r.freevm img d).map mem = Xv6.freevm img d r.mem := by
  rw [freevm, Xv6.freevm, ← deallocuvm_mem]
  obtain _ | ⟨sz, r₁⟩ := r.deallocuvm img d kernbase 0
  · rfl
  · simp only [Option.map_some, Option.bind_some, Prod.map_snd, ← freevmTables_mem]
    cases freevmTables img d (List.finRange 1024) r₁ with
    | none => rfl
    | some r₂ => exact kfree_mem r₂ d

theorem setupkvmMap_mem (r : Ram) (d : ℕ) (ks : List Kmap) :
    (setupkvmMap img d ks r).map (Prod.map id mem) = Xv6.setupkvmMap img d ks r.mem := by
  induction ks generalizing r with
  | nil => rfl
  | cons k ks ih =>
    rw [setupkvmMap, Xv6.setupkvmMap, mappages]
    obtain _ | ⟨ok, m₁⟩ := Xv6.mappages d k.virt (wrapUint ((k.physEnd : ℤ) - k.physStart))
      k.physStart k.perm r.mem
    · rfl
    · simp only [Option.map_some, Option.bind_some]
      split_ifs
      · exact ih _
      · generalize hr₁ : ({ r with mem := m₁ } : Ram) = r₁
        have hm₁ : m₁ = r₁.mem := by rw [← hr₁]
        rw [hm₁, ← freevm_mem]
        simp [Function.comp_def]

theorem setupkvm_mem (r : Ram) :
    (r.setupkvm img).map (Prod.map id mem) = Xv6.setupkvm img r.mem := by
  rw [setupkvm, Xv6.setupkvm, kalloc]
  obtain ⟨_ | d, m₁⟩ := Xv6.kalloc r.mem
  · rfl
  · dsimp only
    split_ifs
    · rfl
    · exact setupkvmMap_mem _ d (kmap img)

/-- `loaduvm` leaves the page tables alone. -/
theorem loaduvmFrom_mem (r : Ram) (d addr : ℕ) (readi : ℕ → ℕ → List UInt8) (offset sz i : ℕ) :
    (loaduvmFrom d addr readi offset sz i r).map (Prod.map id mem) =
      (ProcessMemory.loaduvmFrom r.mem d addr (fun off n => (readi off n).length) offset sz i).map
        fun ok => (ok, r.mem) := by
  induction hn : sz - i using Nat.strong_induction_on generalizing i r with
  | _ n ih =>
    subst hn
    rw [loaduvmFrom, ProcessMemory.loaduvmFrom]
    by_cases hi : i < sz
    · have hnext : sz - (i + pgsize) < sz - i := by unfold pgsize; omega
      rw [dif_pos hi, dif_pos hi, walkpgdir_false]
      generalize (if sz - i < pgsize then sz - i else pgsize) = n
      by_cases hp : (r.mem.page d (pdx (addr + i))).p
      · rw [if_pos hp]
        dsimp only
        by_cases hn : (readi ((offset + i) % 2 ^ 32) n).length ≠ n
        · rw [if_pos hn, if_pos hn, Option.map_some, Option.map_some, Prod.map_apply, store_mem]
          rfl
        · rw [if_neg hn, if_neg hn, ih _ hnext _ _ rfl, store_mem]
      · rw [if_neg hp]
        rfl
    · rw [dif_neg hi, dif_neg hi]
      rfl

theorem loaduvm_mem (r : Ram) (d addr : ℕ) (readi : ℕ → ℕ → List UInt8) (offset sz : ℕ) :
    (loaduvm d addr readi offset sz r).map (Prod.map id mem) =
      (ProcessMemory.loaduvm r.mem d addr (fun off n => (readi off n).length) offset sz).map
        fun ok => (ok, r.mem) := by
  rw [loaduvm, ProcessMemory.loaduvm]
  split_ifs
  · rfl
  · exact loaduvmFrom_mem r d addr readi offset sz 0

theorem execLoad_mem (file : Executable) (d n off sz : ℕ) (r : Ram) :
    (execLoad img file d n off sz r).map (Prod.map id mem) =
      ProcessMemory.execLoad img file.counts d n off sz r.mem := by
  induction n generalizing off sz r with
  | zero => rfl
  | succ n ih =>
    rw [execLoad, ProcessMemory.execLoad]
    have hph : file.counts.ph off = file.ph off := rfl
    rw [hph]
    obtain _ | ph := file.ph off
    · rfl
    · dsimp only
      by_cases htype : ph.type.toNat ≠ elfProgLoad
      · rw [if_pos htype, if_pos htype]
        exact ih _ _ _
      rw [if_neg htype, if_neg htype]
      by_cases hfilesz : ph.memsz < ph.filesz
      · rw [if_pos hfilesz, if_pos hfilesz]
        rfl
      rw [if_neg hfilesz, if_neg hfilesz]
      by_cases hwrap : ph.vaddr + ph.memsz < ph.vaddr
      · rw [if_pos hwrap, if_pos hwrap]
        rfl
      rw [if_neg hwrap, if_neg hwrap, ← allocuvm_mem]
      obtain _ | ⟨sz₁, r₁⟩ := r.allocuvm img d sz (ph.vaddr + ph.memsz).toNat
      · rfl
      · simp only [Option.map_some, Option.bind_some, Prod.map_apply, id]
        split_ifs
        · rfl
        · rfl
        · have hload := loaduvm_mem r₁ d ph.vaddr.toNat file.readi ph.off.toNat ph.filesz.toNat
          have hreadi : file.counts.readi = fun off n => (file.readi off n).length := rfl
          rw [hreadi]
          generalize loaduvm d ph.vaddr.toNat file.readi ph.off.toNat ph.filesz.toNat r₁ = loaded
            at hload ⊢
          obtain _ | ⟨ok, r₂⟩ := loaded
          · rw [Option.map_none, eq_comm, Option.map_eq_none_iff] at hload
            rw [hload]
            rfl
          · rw [Option.map_some, eq_comm, Option.map_eq_some_iff] at hload
            obtain ⟨ok', hcounts, heq⟩ := hload
            obtain ⟨rfl, hmem⟩ : ok' = ok ∧ r₁.mem = r₂.mem := by simpa using heq
            rw [hcounts, Option.bind_some, Option.bind_some, hmem]
            dsimp only
            split_ifs
            · exact ih _ _ _
            · rfl

end Xv6.Ram
