import Xv6.Vm
import Xv6.Lib.CircularList
import Xv6.Lib.GuardedRun
import Xv6.Lib.Tiling

/-!
# The user heap

`umalloc.c`: `malloc`, `morecore` and `free`, and a program that calls `malloc` and `free` any
number of times and stores what it likes in the blocks it holds. `sbrk` fails whenever it
likes; when it does not, it returns the end of the memory and moves it up.

A header is named by its address. Addresses and sizes are of 32 bits.
-/

namespace Xv6.UserHeap

/-- `sizeof(Header)`. -/
def sizeofHeader : ℕ := 8

/-- Where the program has been loaded. -/
structure Layout where
  /-- `&base`. -/
  base : ℕ
  /-- The end of the memory before the first call of `sbrk`. -/
  start : ℕ
  /-- `base` is not at address 0. -/
  base_pos : 0 < base
  /-- `base` is part of the program. -/
  base_le : base + sizeofHeader ≤ start
  /-- The program is in user memory. -/
  start_le : start ≤ kernbase

/-- The memory as far as the allocator uses it. -/
structure Heap where
  /-- `s.ptr` of the header at an address. -/
  ptr : ℕ → ℕ
  /-- `s.size` of the header at an address. -/
  size : ℕ → ℕ
  /-- `freep`. -/
  freep : ℕ
  /-- The end of the memory. -/
  brk : ℕ

/-- `p + n`, for a pointer to a header. -/
def plus (p n : ℕ) : ℕ := (p + sizeofHeader * n) % 2 ^ 32

namespace Heap

/-- `p->s.ptr = q`. -/
def setPtr (s : Heap) (p q : ℕ) : Heap := { s with ptr := Function.update s.ptr p q }

/-- `p->s.size = n`. -/
def setSize (s : Heap) (p n : ℕ) : Heap := { s with size := Function.update s.size p n }

/-- More turns than a loop over the list needs: one for each address of user memory. -/
def turns : ℕ := kernbase

/-- The loop of `free` ends at `p`: `bp` lies between `p` and the next block, or `p` is the last
block and `bp` is beyond it or before the first. -/
def between (s : Heap) (bp p : ℕ) : Bool :=
  p < bp && bp < s.ptr p || s.ptr p ≤ p && (p < bp || bp < s.ptr p)

/-- `free` joins `bp` and the block after it, if they touch. -/
def joinUpper (s : Heap) (p bp : ℕ) : Heap :=
  if plus bp (s.size bp) = s.ptr p then
    let s := s.setSize bp ((s.size bp + s.size (s.ptr p)) % 2 ^ 32)
    s.setPtr bp (s.ptr (s.ptr p))
  else s.setPtr bp (s.ptr p)

/-- `free` joins `bp` and the block before it, if they touch. -/
def joinLower (s : Heap) (p bp : ℕ) : Heap :=
  if plus p (s.size p) = bp then
    let s := s.setSize p ((s.size p + s.size bp) % 2 ^ 32)
    s.setPtr p (s.ptr bp)
  else s.setPtr p bp

/-- `free`; `none` if its loop does not end. -/
def free (s : Heap) (ap : ℕ) : Option Heap :=
  let bp := ap - sizeofHeader
  (follow s.ptr (s.between bp) turns s.freep).map fun p =>
    { (s.joinUpper p bp).joinLower p bp with freep := p }

/-- `sbrk`, with the value returned, or `none` for -1. `grant` says whether there are pages. -/
def sbrk (s : Heap) (grant : ℕ → Bool) (n : ℕ) : Option (Heap × ℕ) :=
  if grant s.brk ∧ s.brk + n ≤ kernbase then some ({ s with brk := s.brk + n }, s.brk) else none

/-- `morecore`, with the value returned. -/
def morecore (s : Heap) (grant : ℕ → Bool) (nu : ℕ) : Option (Heap × ℕ) :=
  let nu := if nu < 4096 then 4096 else nu
  match s.sbrk grant (nu * sizeofHeader % 2 ^ 32) with
  | none => some (s, 0)
  | some (s, hp) => ((s.setSize hp nu).free (plus hp 1)).map fun s => (s, s.freep)

/-- `malloc` has found a block that is large enough: the block is taken, or its end. -/
def cut (s : Heap) (prevp p nunits : ℕ) : Heap × ℕ :=
  if s.size p = nunits then ({ s.setPtr prevp (s.ptr p) with freep := prevp }, plus p 1)
  else
    let s := s.setSize p (s.size p - nunits)
    let p := plus p (s.size p)
    ({ s.setSize p nunits with freep := prevp }, plus p 1)

/-- The loop of `malloc`, in a bounded number of turns. -/
def mallocLoop (grant : ℕ → Bool) (nunits : ℕ) : ℕ → Heap → ℕ → ℕ → Option (Heap × ℕ)
  | 0, _, _, _ => none
  | k + 1, s, prevp, p =>
    if nunits ≤ s.size p then some (s.cut prevp p nunits)
    else if p = s.freep then
      (s.morecore grant nunits).bind fun x =>
        if x.2 = 0 then some x else mallocLoop grant nunits k x.1 x.2 (x.1.ptr x.2)
    else mallocLoop grant nunits k s p (s.ptr p)

/-- `nunits`. -/
def units (nbytes : ℕ) : ℕ := (nbytes + (sizeofHeader - 1)) % 2 ^ 32 / sizeofHeader + 1

/-- The first call of `malloc` makes a list of `base` only. -/
def init (s : Heap) (L : Layout) : Heap :=
  if s.freep = 0 then
    { (s.setPtr L.base L.base).setSize L.base 0 with freep := L.base }
  else s

/-- `malloc`, with the value returned; `none` if a loop does not end. -/
def malloc (s : Heap) (L : Layout) (grant : ℕ → Bool) (nbytes : ℕ) : Option (Heap × ℕ) :=
  let s := s.init L
  mallocLoop grant (units nbytes) (2 * turns) s s.freep (s.ptr s.freep)

end Heap

/-! ## The program -/

/-- A block that `malloc` has returned and that has not been freed. -/
structure Block where
  /-- The pointer returned. -/
  ap : ℕ
  /-- The number of bytes asked for. -/
  nbytes : ℕ
  deriving DecidableEq

/-- The header of a block. -/
def Block.header (b : Block) : ℕ := b.ap - sizeofHeader

/-- The heap and the blocks that the program holds. -/
structure State where
  /-- The memory. -/
  heap : Heap
  /-- The blocks returned and not freed. -/
  live : List Block

/-- Before the first call, `freep` is 0. -/
def State.start (L : Layout) : State := ⟨⟨fun _ => 0, fun _ => 0, 0, L.start⟩, []⟩

/-- What the program does. -/
inductive Action
  /-- `malloc`; `grant` says at which ends of the memory `sbrk` succeeds. -/
  | malloc (nbytes : ℕ) (grant : ℕ → Bool)
  /-- `free` of a block that it holds. -/
  | free (b : Block)
  /-- It stores something at an address in a block that it holds. -/
  | store (b : Block) (a : ℕ) (first second : ℕ)

/-- The steps; `none` also for a loop that does not end. -/
def step (L : Layout) (s : State) : Action → Option State
  | .malloc nbytes grant =>
    if nbytes < 2 ^ 30 then
      (s.heap.malloc L grant nbytes).map fun x =>
        ⟨x.1, if x.2 = 0 then s.live else ⟨x.2, nbytes⟩ :: s.live⟩
    else none
  | .free b =>
    if b ∈ s.live then (s.heap.free b.ap).map fun heap => ⟨heap, s.live.erase b⟩ else none
  | .store b a first second =>
    if b ∈ s.live ∧ b.ap ≤ a ∧
        a + sizeofHeader ≤ b.header + sizeofHeader * s.heap.size b.header then
      some { s with heap := (s.heap.setPtr a first).setSize a second }
    else none

end Xv6.UserHeap
