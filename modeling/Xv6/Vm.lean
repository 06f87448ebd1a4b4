import Xv6.Param
import Xv6.Lib.PageStore

/-!
# Physical pages and page tables

`kalloc.c` and `vm.c`: the allocator of physical pages, the two-level page tables in these pages,
and the functions that build, grow, shrink, copy and free an address space.

A page is named by its kernel virtual address, as `kalloc` returns it. Only the words of page
directories and page tables matter here; the bytes of user pages are not modelled. A function
that may panic returns an `Option`, with `none` for the panic; a null pointer that `kalloc` or
`walkpgdir` returns is a `none` of its own.
-/

namespace Xv6

/-- `PGSIZE`. -/
def pgsize : ℕ := 4096

/-- `EXTMEM`: start of extended memory. -/
def extmem : ℕ := 0x100000

/-- `PHYSTOP`: top of physical memory. -/
def phystop : ℕ := 0xE000000

/-- `DEVSPACE`: other devices are at high addresses. -/
def devspace : ℕ := 0xFE000000

/-- `KERNBASE`: first kernel virtual address. -/
def kernbase : ℕ := 0x80000000

/-- `KERNLINK`: address where the kernel is linked. -/
def kernlink : ℕ := kernbase + extmem

/-- `V2P`. -/
def v2p (a : ℕ) : ℕ := (a + (2 ^ 32 - kernbase)) % 2 ^ 32

/-- `P2V`. -/
def p2v (a : ℕ) : ℕ := (a + kernbase) % 2 ^ 32

/-- `PGROUNDUP`. -/
def pgroundup (sz : ℕ) : ℕ := (sz + pgsize - 1) % 2 ^ 32 / pgsize * pgsize

/-- `PGROUNDDOWN`. -/
def pgrounddown (a : ℕ) : ℕ := a / pgsize * pgsize

/-- `PDX`: the page directory index. -/
def pdx (va : ℕ) : Fin 1024 := Fin.ofNat 1024 (va / 2 ^ 22)

/-- `PTX`: the page table index. -/
def ptx (va : ℕ) : Fin 1024 := Fin.ofNat 1024 (va / 2 ^ 12)

/-- The word of a page that a byte belongs to. -/
def wordIndex (off : ℕ) : Fin 1024 := Fin.ofNat 1024 (off / 4)

/-- A page directory or page table entry: `PTE_ADDR` and `PTE_FLAGS`. -/
structure Pte where
  /-- The physical address of the page. -/
  addr : ℕ
  /-- Present. -/
  p : Bool
  /-- Writeable. -/
  w : Bool
  /-- User. -/
  u : Bool
  /-- The other nine flags, from `PTE_PWT` up to the bits that are left to software. -/
  other : Fin 512
  deriving DecidableEq

/-- The flags of an entry that are passed to `mappages`: all of them but `PTE_P`, which it sets. -/
structure Perm where
  /-- `PTE_W`. -/
  w : Bool
  /-- `PTE_U`. -/
  u : Bool
  /-- The other nine flags. -/
  other : Fin 512
  deriving DecidableEq

/-- `pa | perm | PTE_P`. -/
def Pte.present (pa : ℕ) (perm : Perm) : Pte := ⟨pa, true, perm.w, perm.u, perm.other⟩

/-- `PTE_FLAGS` of an entry, but for `PTE_P`. -/
def Pte.flags (e : Pte) : Perm := ⟨e.w, e.u, e.other⟩

/-- A word that is 0. -/
def Pte.zero : Pte := ⟨0, false, false, false, 0⟩

/-- The word `0x01010101` that `kfree` leaves. -/
def Pte.junk : Pte := ⟨0x01010000, true, false, false, 32⟩

/-- The word of an entry. -/
def Pte.word (e : Pte) : ℕ := e.addr + e.p.toNat + 2 * e.w.toNat + 4 * e.u.toNat + 8 * e.other

/-- A word, taken for an entry. -/
def Pte.ofWord (x : ℕ) : Pte :=
  ⟨x / pgsize * pgsize, x.testBit 0, x.testBit 1, x.testBit 2, Fin.ofNat 512 (x / 8)⟩

example : Pte.ofWord 0x01010101 = .junk := by decide

/-- Physical memory: `kmem.freelist`, and the pages as arrays of entries. -/
abbrev Mem := PageStore ℕ (Fin 1024 → Pte)

/-- The addresses that the linker script provides. -/
structure KernelImage where
  /-- `data`. -/
  data : ℕ
  /-- `end`, the first address after the kernel. -/
  kend : ℕ
  /-- The data segment starts on a page of its own. -/
  data_aligned : data % pgsize = 0
  /-- The code comes first. -/
  kernlink_lt_data : kernlink < data
  /-- The data segment lies before the end. -/
  data_le_end : data ≤ kend
  /-- The kernel fits into what the boot page table maps. -/
  end_le : kend ≤ kernbase + 4 * 1024 * 1024

/-! ## The allocator -/

/-- `kalloc`. -/
def kalloc (m : Mem) : Option ℕ × Mem := m.alloc

/-- `kfree`. -/
def kfree (img : KernelImage) (m : Mem) (v : ℕ) : Option Mem :=
  if v % pgsize ≠ 0 ∨ v < img.kend ∨ v2p v ≥ phystop then none
  else some (m.release (fun _ => Pte.junk) v)

/-- The loop of `freerange`, from the page `p` on. -/
def freerangeFrom (img : KernelImage) (vend p : ℕ) (m : Mem) : Option Mem :=
  if _h : p + pgsize ≤ vend then
    (kfree img m p).bind fun m => freerangeFrom img vend (p + pgsize) m
  else some m
termination_by vend - p
decreasing_by unfold pgsize at *; omega

/-- `freerange`. -/
def freerange (img : KernelImage) (vstart vend : ℕ) (m : Mem) : Option Mem :=
  freerangeFrom img vend (pgroundup vstart) m

/-! ## Page tables -/

/-- Replace one word of a page. -/
def setEntry (m : Mem) (page : ℕ) (i : Fin 1024) (e : Pte) : Mem :=
  m.write page fun j => if j = i then e else m.page page j

/-- `memset(page, 0, PGSIZE)`. -/
def clearPage (m : Mem) (page : ℕ) : Mem := m.write page fun _ => Pte.zero

/-- `walkpgdir`: the page table and the index of the entry for `va`, or null. -/
def walkpgdir (m : Mem) (pgdir va : ℕ) (alloc : Bool) : Option (ℕ × Fin 1024) × Mem :=
  let pde := m.page pgdir (pdx va)
  if pde.p then (some (p2v pde.addr, ptx va), m)
  else if !alloc then (none, m)
  else
    match kalloc m with
    | (none, m) => (none, m)
    | (some pgtab, m) =>
        (some (pgtab, ptx va),
          setEntry (clearPage m pgtab) pgdir (pdx va) (.present (v2p pgtab) ⟨true, true, 0⟩))

/-- The loop of `mappages`, with `n` pages to follow after the one at `a`. The flag says whether
0 is returned, and not -1. -/
def mappagesFrom (pgdir : ℕ) (perm : Perm) : ℕ → ℕ → ℕ → Mem → Option (Bool × Mem)
  | n, a, pa, m =>
    match walkpgdir m pgdir a true with
    | (none, m) => some (false, m)
    | (some (pgtab, i), m) =>
        if (m.page pgtab i).p then none
        else
          let m := setEntry m pgtab i (.present pa perm)
          match n with
          | 0 => some (true, m)
          | n + 1 => mappagesFrom pgdir perm n (a + pgsize) (pa + pgsize) m

/-- `mappages`. -/
def mappages (pgdir va size pa : ℕ) (perm : Perm) (m : Mem) : Option (Bool × Mem) :=
  let a := pgrounddown va
  let last := pgrounddown (wrapUint ((va : ℤ) + size - 1))
  mappagesFrom pgdir perm ((last - a) / pgsize) a pa m

/-- The loop of `deallocuvm`. After a missing page table it goes on at
`PGADDR(PDX(a) + 1, 0, 0)`; in every call `oldsz` is at most `KERNBASE`, so this does not wrap. -/
def deallocuvmFrom (img : KernelImage) (pgdir oldsz a : ℕ) (m : Mem) : Option Mem :=
  if _h : a < oldsz then
    match walkpgdir m pgdir a false with
    | (none, m) => deallocuvmFrom img pgdir oldsz ((a / 2 ^ 22 + 1) * 2 ^ 22) m
    | (some (pgtab, i), m) =>
        let pte := m.page pgtab i
        if pte.p then
          if pte.addr = 0 then none
          else
            (kfree img m (p2v pte.addr)).bind fun m =>
              deallocuvmFrom img pgdir oldsz (a + pgsize) (setEntry m pgtab i .zero)
        else deallocuvmFrom img pgdir oldsz (a + pgsize) m
  else some m
termination_by oldsz - a
decreasing_by
  · omega
  · unfold pgsize; omega
  · unfold pgsize; omega

/-- `deallocuvm`: the size it returns. -/
def deallocuvm (img : KernelImage) (pgdir oldsz newsz : ℕ) (m : Mem) : Option (ℕ × Mem) :=
  if newsz ≥ oldsz then some (oldsz, m)
  else (deallocuvmFrom img pgdir oldsz (pgroundup newsz) m).map fun m => (newsz, m)

/-- The loop of `freevm` over the page directory. -/
def freevmTables (img : KernelImage) (pgdir : ℕ) : List (Fin 1024) → Mem → Option Mem
  | [], m => some m
  | i :: is, m =>
      if (m.page pgdir i).p then
        (kfree img m (p2v (m.page pgdir i).addr)).bind (freevmTables img pgdir is)
      else freevmTables img pgdir is m

/-- `freevm`. -/
def freevm (img : KernelImage) (pgdir : ℕ) (m : Mem) : Option Mem :=
  (deallocuvm img pgdir kernbase 0 m).bind fun (_, m) =>
    (freevmTables img pgdir (List.finRange 1024) m).bind fun m => kfree img m pgdir

/-- `struct kmap`. -/
structure Kmap where
  /-- `virt`. -/
  virt : ℕ
  /-- `phys_start`. -/
  physStart : ℕ
  /-- `phys_end`. -/
  physEnd : ℕ
  /-- `perm`. -/
  perm : Perm

/-- The table `kmap`: I/O space, kernel text, kernel data and memory, and more devices. -/
def kmap (img : KernelImage) : List Kmap :=
  [⟨kernbase, 0, extmem, ⟨true, false, 0⟩⟩,
    ⟨kernlink, v2p kernlink, v2p img.data, ⟨false, false, 0⟩⟩,
    ⟨img.data, v2p img.data, phystop, ⟨true, false, 0⟩⟩,
    ⟨devspace, devspace, 0, ⟨true, false, 0⟩⟩]

/-- The loop of `setupkvm` over `kmap`. -/
def setupkvmMap (img : KernelImage) (pgdir : ℕ) : List Kmap → Mem → Option (Option ℕ × Mem)
  | [], m => some (some pgdir, m)
  | k :: ks, m =>
      (mappages pgdir k.virt (wrapUint ((k.physEnd : ℤ) - k.physStart)) k.physStart k.perm m).bind
        fun (ok, m) =>
          if ok then setupkvmMap img pgdir ks m
          else (freevm img pgdir m).map fun m => (none, m)

/-- `setupkvm`. -/
def setupkvm (img : KernelImage) (m : Mem) : Option (Option ℕ × Mem) :=
  match kalloc m with
  | (none, m) => some (none, m)
  | (some pgdir, m) =>
      if p2v phystop > devspace then none
      else setupkvmMap img pgdir (kmap img) (clearPage m pgdir)

/-- `inituvm`, given the size of `init`. `memset` faults if `kalloc` returns 0; what `mappages`
returns is not looked at. -/
def inituvm (pgdir sz : ℕ) (m : Mem) : Option Mem :=
  if sz ≥ pgsize then none
  else
    match kalloc m with
    | (none, _) => none
    | (some mem, m) => (mappages pgdir 0 pgsize (v2p mem) ⟨true, true, 0⟩ m).map (·.2)

/-- The loop of `allocuvm`: the size it returns, 0 on error. -/
def allocuvmFrom (img : KernelImage) (pgdir oldsz newsz a : ℕ) (m : Mem) : Option (ℕ × Mem) :=
  if _h : a < newsz then
    match kalloc m with
    | (none, m) => (deallocuvm img pgdir newsz oldsz m).map fun (_, m) => (0, m)
    | (some mem, m) =>
        (mappages pgdir a pgsize (v2p mem) ⟨true, true, 0⟩ m).bind fun (ok, m) =>
          if ok then allocuvmFrom img pgdir oldsz newsz (a + pgsize) m
          else
            (deallocuvm img pgdir newsz oldsz m).bind fun (_, m) =>
              (kfree img m mem).map fun m => (0, m)
  else some (newsz, m)
termination_by newsz - a
decreasing_by unfold pgsize; omega

/-- `allocuvm`. -/
def allocuvm (img : KernelImage) (pgdir oldsz newsz : ℕ) (m : Mem) : Option (ℕ × Mem) :=
  if newsz ≥ kernbase then some (0, m)
  else if newsz < oldsz then some (oldsz, m)
  else allocuvmFrom img pgdir oldsz newsz (pgroundup oldsz) m

/-- The loop of `copyuvm`, from the address `i` on. -/
def copyuvmFrom (img : KernelImage) (pgdir sz d i : ℕ) (m : Mem) : Option (Option ℕ × Mem) :=
  if _h : i < sz then
    match walkpgdir m pgdir i false with
    | (none, _) => none
    | (some (pgtab, j), m) =>
        let pte := m.page pgtab j
        if !pte.p then none
        else
          match kalloc m with
          | (none, m) => (freevm img d m).map fun m => (none, m)
          | (some mem, m) =>
              (mappages d i pgsize (v2p mem) pte.flags m).bind fun (ok, m) =>
                if ok then copyuvmFrom img pgdir sz d (i + pgsize) m
                else
                  (kfree img m mem).bind fun m => (freevm img d m).map fun m => (none, m)
  else some (some d, m)
termination_by sz - i
decreasing_by unfold pgsize; omega

/-- `copyuvm`: the new page directory, or null. -/
def copyuvm (img : KernelImage) (pgdir sz : ℕ) (m : Mem) : Option (Option ℕ × Mem) :=
  (setupkvm img m).bind fun (d, m) =>
    match d with
    | none => some (none, m)
    | some d => copyuvmFrom img pgdir sz d 0 m

/-- `clearpteu`. -/
def clearpteu (pgdir uva : ℕ) (m : Mem) : Option Mem :=
  match walkpgdir m pgdir uva false with
  | (none, _) => none
  | (some (pgtab, i), m) =>
      let pte := m.page pgtab i
      some (setEntry m pgtab i { pte with u := false })

/-- `uva2ka`: the page, or null. The code dereferences `pte` without a test, so the outer `none`
is a null pointer dereferenced. -/
def uva2ka (m : Mem) (pgdir uva : ℕ) : Option (Option ℕ) :=
  match walkpgdir m pgdir uva false with
  | (none, _) => none
  | (some (pgtab, i), m) =>
      let pte := m.page pgtab i
      some (if !pte.p then none else if !pte.u then none else some (p2v pte.addr))

/-- `copyout`: whether it returns 0, and not -1. The bytes go to user pages. -/
def copyout (m : Mem) (pgdir va len : ℕ) : Option Bool :=
  if _h : 0 < len then
    (uva2ka m pgdir (pgrounddown va)).bind fun pa0 =>
      if pa0.getD 0 = 0 then some false
      else
        let n := (pgsize - (va - pgrounddown va)) ⊓ len
        copyout m pgdir ((pgrounddown va + pgsize) % 2 ^ 32) (len - n)
  else some true
termination_by len
decreasing_by unfold pgrounddown pgsize; omega

end Xv6
