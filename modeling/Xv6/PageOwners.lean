import Xv6.AddressSpaceOps
import Xv6.ProcessMemory

/-!
# Every physical page has one owner

The pages between `PGROUNDUP(end)` and `PHYSTOP` are on the free list, are kernel stacks of
processes or CPUs, belong to the address space of a process or of the kernel, or are pipes, each
of them exactly once. `step_cases` says what a step can do to the address space of a process;
the later results about memory rest on it.
-/

namespace Xv6.ProcessMemory

open PageStore GuardedRun

/-! ## Free memory at boot -/

/-- `n` pages from the page `p` on. -/
def pageRange : ℕ → ℕ → Multiset ℕ
  | _, 0 => 0
  | p, n + 1 => p ::ₘ pageRange (p + pgsize) n

/-- The pages from `PGROUNDUP(end)` to `PHYSTOP`. -/
def allPages (img : KernelImage) : Multiset ℕ :=
  pageRange (pgroundup img.kend) ((p2v phystop - pgroundup img.kend) / pgsize)

theorem mem_pageRange {p n f : ℕ} (haligned : p % 4096 = 0) :
    f ∈ pageRange p n ↔ f % 4096 = 0 ∧ p ≤ f ∧ f < p + n * 4096 := by
  induction n generalizing p with
  | zero => simp [pageRange]
  | succ n ih =>
    rw [pageRange, Multiset.mem_cons, ih (by unfold pgsize; omega)]
    unfold pgsize
    omega

theorem nodup_pageRange {p n : ℕ} (haligned : p % 4096 = 0) : (pageRange p n).Nodup := by
  induction n generalizing p with
  | zero => simp [pageRange]
  | succ n ih =>
    have hnext : (p + pgsize) % 4096 = 0 := by unfold pgsize; omega
    rw [pageRange, Multiset.nodup_cons, mem_pageRange hnext]
    refine ⟨?_, ih hnext⟩
    unfold pgsize
    omega

theorem pageRange_add (p n k : ℕ) :
    pageRange p (n + k) = pageRange p n + pageRange (p + n * pgsize) k := by
  induction n generalizing p with
  | zero => simp [pageRange]
  | succ n ih =>
    have hstart : p + pgsize + n * pgsize = p + (n + 1) * pgsize := by ring
    rw [show n + 1 + k = n + k + 1 by omega, pageRange, pageRange, ih, hstart,
      Multiset.cons_add]

theorem card_pageRange (p n : ℕ) : Multiset.card (pageRange p n) = n := by
  induction n generalizing p with
  | zero => rfl
  | succ n ih => rw [pageRange, Multiset.card_cons, ih]

variable {img : KernelImage}

/-- Where the kernel ends. -/
theorem pgroundup_kend_bounds (img : KernelImage) :
    pgroundup img.kend % 4096 = 0 ∧ img.kend ≤ pgroundup img.kend ∧
      0x80100000 < pgroundup img.kend ∧ pgroundup img.kend ≤ 0x80400000 := by
  have hlow := img.kernlink_lt_data
  have hdata := img.data_le_end
  have hhigh := img.end_le
  unfold kernlink kernbase extmem at hlow
  unfold kernbase at hhigh
  unfold pgroundup pgsize
  omega

/-- The pages of the free memory. -/
theorem mem_allPages {f : ℕ} :
    f ∈ allPages img ↔ f % pgsize = 0 ∧ pgroundup img.kend ≤ f ∧ f < p2v phystop := by
  have hbounds := pgroundup_kend_bounds img
  rw [allPages, mem_pageRange hbounds.1]
  unfold p2v phystop kernbase pgsize
  omega

theorem allocatable_iff {f : ℕ} : Allocatable img f ↔ f ∈ allPages img := by
  have hbounds := pgroundup_kend_bounds img
  rw [mem_allPages]
  have hround : f % pgsize = 0 → (img.kend ≤ f ↔ pgroundup img.kend ≤ f) := by
    unfold pgroundup pgsize at *
    omega
  have htop : kernbase + phystop = p2v phystop := by decide
  constructor
  · intro hf
    exact ⟨hf.aligned, (hround hf.aligned).mp hf.kend_le, htop ▸ hf.lt_phystop⟩
  · rintro ⟨haligned, hlow, hhigh⟩
    exact ⟨haligned, (hround haligned).mpr hlow, htop ▸ hhigh⟩

/-- The free memory is sound. -/
theorem sound_allPages (img : KernelImage) : Sound img (allPages img) :=
  ⟨nodup_pageRange (pgroundup_kend_bounds img).1, fun _ hf => allocatable_iff.mpr hf⟩

/-- The loop of `freerange` puts the pages of a range on the free list. -/
theorem freerangeFrom_spec {vend p n : ℕ} {m : Mem} (haligned : p % 4096 = 0)
    (hcount : p + n * 4096 = vend) (hsound : Sound img (m.free + pageRange p n)) :
    ∃ m', freerangeFrom img vend p m = some m' ∧ Moves m (pageRange p n) m' 0 ∧
      m'.free.length = m.free.length + n := by
  induction n generalizing p m with
  | zero =>
    refine ⟨m, ?_, .refl _ _, rfl⟩
    rw [freerangeFrom, dif_neg (by unfold pgsize; omega)]
  | succ n ih =>
    rw [pageRange] at hsound ⊢
    have hf : Allocatable img p := hsound.allocatable p (by simp)
    have hrelease := Moves.release m (fun _ => Pte.junk) p (pageRange (p + pgsize) n)
    rw [← hrelease.total] at hsound
    obtain ⟨m', hloop, hmoves, hlength⟩ := ih (p := p + pgsize) (by unfold pgsize; omega)
      (by unfold pgsize; omega) hsound
    refine ⟨m', ?_, hrelease.trans hmoves, ?_⟩
    · rw [freerangeFrom, dif_pos (by unfold pgsize; omega), kfree_eq hf, Option.bind_some]
      exact hloop
    · rw [hlength, release, List.length_cons]
      omega

/-- `freerange` on a range of pages of the free memory. -/
theorem freerange_spec {m : Mem} (vstart vend n : ℕ) (hcount : pgroundup vstart + n * 4096 = vend)
    (hsound : Sound img (m.free + pageRange (pgroundup vstart) n)) :
    ∃ m', freerange img vstart vend m = some m' ∧ Moves m (pageRange (pgroundup vstart) n) m' 0 ∧
      m'.free.length = m.free.length + n :=
  freerangeFrom_spec (by unfold pgroundup pgsize; omega) hcount hsound

/-! ## Owners -/

/-- The pages of a process: kernel stack and address space. -/
def procPages (w : ℕ → Fin 1024 → Pte) (p : Proc) : Multiset ℕ :=
  if p.state = .unused then 0 else p.kstack ::ₘ dirPages w p.pgdir

/-- The pages in use: CPU stacks, the kernel's page table, pipes, and the pages of the
processes. -/
def inUse (s : State) : Multiset ℕ :=
  (s.cpuStacks : Multiset ℕ) + dirPages s.mem.page s.kpgdir + (s.pipes.map (·.page) : List ℕ) +
    gather fun i => procPages s.mem.page (s.table.proc i)

/-- All the places of pages: the free list and the pages in use. -/
def places (s : State) : Multiset ℕ := s.mem.free + inUse s

/-- The memory of the two processes is the same. -/
structure SameSpace (p p' : Proc) : Prop where
  /-- The kernel stack stays. -/
  kstack : p'.kstack = p.kstack
  /-- The page table stays. -/
  pgdir : p'.pgdir = p.pgdir
  /-- The size stays. -/
  sz : p'.sz = p.sz
  /-- The slot stays in use, or unused. -/
  unused : p'.state = .unused ↔ p.state = .unused

theorem SameSpace.refl (p : Proc) : SameSpace p p := ⟨rfl, rfl, rfl, .rfl⟩

theorem SameSpace.trans {p p' p'' : Proc} (hfirst : SameSpace p p') (hsecond : SameSpace p' p'') :
    SameSpace p p'' :=
  ⟨hsecond.kstack.trans hfirst.kstack, hsecond.pgdir.trans hfirst.pgdir,
    hsecond.sz.trans hfirst.sz, hsecond.unused.trans hfirst.unused⟩

theorem SameSpace.procPages_eq {p p' : Proc} (hsame : SameSpace p p')
    (w : ℕ → Fin 1024 → Pte) : procPages w p' = procPages w p := by
  unfold procPages
  rw [hsame.kstack, hsame.pgdir]
  exact if_congr hsame.unused rfl rfl

/-- A step that changes the memory of at most the process `i`. -/
structure Changes (s s' : State) (i : Slot) : Prop where
  /-- The other processes keep their memory. -/
  other : ∀ j, j ≠ i → SameSpace (s.table.proc j) (s'.table.proc j)
  /-- The kernel's page table stays. -/
  kpgdir : s'.kpgdir = s.kpgdir
  /-- The stacks of the CPUs stay. -/
  cpuStacks : s'.cpuStacks = s.cpuStacks
  /-- The pipes stay. -/
  pipes : s'.pipes = s.pipes
  /-- Pages move between the free list and the process. -/
  moves : Moves s.mem (procPages s.mem.page (s.table.proc i)) s'.mem
    (procPages s'.mem.page (s'.table.proc i))

/-- An address space that a computation does not hold stays as it is. -/
theorem frame_dirPages {m m' : Mem} {held held' rest : Multiset ℕ} {d : ℕ}
    (hmoves : Moves m held m' held') (hnodup : ((m.free : Multiset ℕ) + held + rest).Nodup)
    (hle : dirPages m.page d ≤ rest) :
    dirPages m'.page d = dirPages m.page d ∧ ∀ b, Mapped m'.page d b ↔ Mapped m.page d b := by
  have hsame : ∀ f ∈ dirPages m.page d, m'.page f = m.page f := fun f hf =>
    hmoves.page_of_mem_rest hnodup (Multiset.mem_of_le hle hf)
  exact ⟨dirPages_congr hsame, mapped_congr hsame⟩

variable {s s' : State} {i : Slot}

/-- The pages in use, without those of one process. -/
def restOf (s : State) (i : Slot) : Multiset ℕ :=
  (s.cpuStacks : Multiset ℕ) + dirPages s.mem.page s.kpgdir + (s.pipes.map (·.page) : List ℕ) +
    gather fun j => if j = i then 0 else procPages s.mem.page (s.table.proc j)

theorem inUse_eq (s : State) (i : Slot) :
    inUse s = procPages s.mem.page (s.table.proc i) + restOf s i := by
  have hgather := gather_update (i := i)
    (f := fun j => procPages s.mem.page (s.table.proc j))
    (g := fun j => if j = i then 0 else procPages s.mem.page (s.table.proc j))
    fun j hj => if_neg hj
  rw [if_pos rfl, add_zero] at hgather
  rw [inUse, restOf, ← hgather]
  abel

theorem places_eq (s : State) (i : Slot) :
    places s = s.mem.free + procPages s.mem.page (s.table.proc i) + restOf s i := by
  rw [places, inUse_eq s i, add_assoc]

theorem dirPages_le_restOf {j : Slot} (hj : j ≠ i)
    (hlive : (s.table.proc j).state ≠ .unused) :
    dirPages s.mem.page (s.table.proc j).pgdir ≤ restOf s i := by
  have hle := le_gather
    (fun k => if k = i then 0 else procPages s.mem.page (s.table.proc k)) j
  rw [if_neg hj, procPages, if_neg hlive] at hle
  exact ((Multiset.le_cons_self _ _).trans hle).trans (Multiset.le_add_left _ _)

/-- A step that changes the memory of one process keeps the places of pages, and the address
spaces of the other processes. -/
theorem Changes.frame (hchanges : Changes s s' i) (hnodup : (places s).Nodup) :
    places s' = places s ∧ ∀ j, j ≠ i → (s.table.proc j).state ≠ .unused → ∀ b,
      (Mapped s'.mem.page (s'.table.proc j).pgdir b ↔
        Mapped s.mem.page (s.table.proc j).pgdir b) := by
  rw [places_eq s i] at hnodup
  have hkernel : dirPages s'.mem.page s.kpgdir = dirPages s.mem.page s.kpgdir := by
    refine (frame_dirPages hchanges.moves hnodup ?_).1
    unfold restOf
    exact (Multiset.le_add_left _ _).trans
      ((Multiset.le_add_right _ _).trans (Multiset.le_add_right _ _))
  have hother : ∀ j, j ≠ i →
      procPages s'.mem.page (s'.table.proc j) = procPages s.mem.page (s.table.proc j) := by
    intro j hj
    rw [(hchanges.other j hj).procPages_eq]
    unfold procPages
    split_ifs with hunused
    · rfl
    · rw [(frame_dirPages hchanges.moves hnodup (dirPages_le_restOf hj hunused)).1]
  constructor
  · have hrest : restOf s' i = restOf s i := by
      unfold restOf
      rw [hchanges.cpuStacks, hchanges.kpgdir, hchanges.pipes, hkernel]
      refine congrArg _ (gather_congr fun j => ?_)
      split_ifs with hj
      · rfl
      · exact hother j hj
    rw [places_eq s i, places_eq s' i, hrest, hchanges.moves.total]
  · intro j hj hlive b
    rw [(hchanges.other j hj).pgdir]
    exact (frame_dirPages hchanges.moves hnodup (dirPages_le_restOf hj hlive)).2 b

/-! ## What a step does to the address space of a process -/

/-- What the step `a` may do to the address space of the process `i`. -/
inductive SpaceChange (s : State) (a : Action) (s' : State) (i : Slot) : Prop
  /-- The slot is free afterwards. -/
  | gone : (s'.table.proc i).state = .unused → SpaceChange s a s' i
  /-- The process is new, with a copy of the memory of another one. -/
  | copied (j : Slot) : (s.table.proc j).state ≠ .unused →
      (s'.table.proc i).sz = (s.table.proc j).sz →
      (∀ b < kernbase, Mapped s'.mem.page (s'.table.proc i).pgdir b ↔
        b / 4096 * 4096 < (s'.table.proc i).sz) → SpaceChange s a s' i
  /-- The process has a new image. -/
  | loaded : (s'.table.proc i).sz < kernbase →
      (∀ b < kernbase, Mapped s'.mem.page (s'.table.proc i).pgdir b ↔
        b < pgroundup (s'.table.proc i).sz) → SpaceChange s a s' i
  /-- The process has grown. -/
  | grown (newsz : ℕ) : (s.table.proc i).state ≠ .unused → newsz < kernbase →
      (s'.table.proc i).sz = max (s.table.proc i).sz newsz →
      (∀ b < 2 ^ 32, Mapped s'.mem.page (s'.table.proc i).pgdir b ↔
        Mapped s.mem.page (s.table.proc i).pgdir b ∨
          pgroundup (s.table.proc i).sz ≤ b ∧ b / 4096 * 4096 < newsz) → SpaceChange s a s' i
  /-- Size and mapping are as before. -/
  | kept : (s.table.proc i).state ≠ .unused → (s'.table.proc i).sz = (s.table.proc i).sz →
      (∀ b < 2 ^ 32, Mapped s'.mem.page (s'.table.proc i).pgdir b ↔
        Mapped s.mem.page (s.table.proc i).pgdir b) → SpaceChange s a s' i
  /-- The process has shrunk. -/
  | shrunk : (s.table.proc i).state ≠ .unused →
      (s'.table.proc i).sz < (s.table.proc i).sz →
      (∀ b < 2 ^ 32, Mapped s'.mem.page (s'.table.proc i).pgdir b ↔
        Mapped s.mem.page (s.table.proc i).pgdir b ∧
          ¬ (pgroundup (s'.table.proc i).sz ≤ b ∧ b / 4096 * 4096 < (s.table.proc i).sz)) →
      SpaceChange s a s' i
  /-- `growproc` has removed all pages, and returned -1 with the size unchanged. -/
  | emptied (n : ℤ) : a = .growproc i n → (s.table.proc i).state ≠ .unused → n < 0 →
      wrapUint ((s.table.proc i).sz + n) = 0 → (s'.table.proc i).sz = (s.table.proc i).sz →
      (∀ b < 2 ^ 32, Mapped s'.mem.page (s'.table.proc i).pgdir b ↔
        Mapped s.mem.page (s.table.proc i).pgdir b ∧
          ¬ b / 4096 * 4096 < (s.table.proc i).sz) → SpaceChange s a s' i

/-- Every page has one place, and no process has pages above its size. -/
structure Owned (img : KernelImage) (s : State) : Prop where
  /-- The places hold each page of the free memory once. -/
  places_eq : places s = allPages img
  /-- Sizes end below the kernel. -/
  sz_lt : ∀ i, (s.table.proc i).state ≠ .unused → (s.table.proc i).sz < kernbase
  /-- Nothing is mapped from the size on. -/
  above : ∀ i, (s.table.proc i).state ≠ .unused → ∀ b < kernbase,
    pgroundup (s.table.proc i).sz ≤ b → ¬ Mapped s.mem.page (s.table.proc i).pgdir b

theorem Owned.nodup (howned : Owned img s) : (places s).Nodup :=
  howned.places_eq ▸ (sound_allPages img).nodup

/-- The free list and the pages of a process are sound. -/
theorem Owned.sound (howned : Owned img s) (i : Slot) :
    Sound img (s.mem.free + procPages s.mem.page (s.table.proc i)) := by
  refine (sound_allPages img).mono ?_
  rw [← howned.places_eq, Xv6.ProcessMemory.places_eq s i]
  exact Multiset.le_add_right _ _

theorem procPages_of_live {w : ℕ → Fin 1024 → Pte} {p : Proc} (hlive : p.state ≠ .unused) :
    procPages w p = p.kstack ::ₘ dirPages w p.pgdir := if_neg hlive

theorem Owned.sound_dirPages (howned : Owned img s) (hlive : (s.table.proc i).state ≠ .unused) :
    Sound img (s.mem.free + dirPages s.mem.page (s.table.proc i).pgdir) := by
  have hsound := howned.sound i
  rw [procPages_of_live hlive] at hsound
  exact hsound.mono (add_le_add_right (Multiset.le_cons_self _ _) _)

/-- A process keeps its kernel stack and its page directory, whose address space changes. -/
theorem changes_of_moves {t : PTable} {m : Mem} (hlive : (s.table.proc i).state ≠ .unused)
    (hother : ∀ j, j ≠ i → t.proc j = s.table.proc j)
    (hstate : (t.proc i).state = (s.table.proc i).state)
    (hkstack : (t.proc i).kstack = (s.table.proc i).kstack)
    (hpgdir : (t.proc i).pgdir = (s.table.proc i).pgdir)
    (hmoves : Moves s.mem (dirPages s.mem.page (s.table.proc i).pgdir) m
      (dirPages m.page (s.table.proc i).pgdir)) :
    Changes s { s with table := t, mem := m } i := by
  refine ⟨fun j hj => ?_, rfl, rfl, rfl, ?_⟩
  · dsimp only
    rw [hother j hj]
    exact .refl _
  · have hlive' : (t.proc i).state ≠ .unused := by rwa [hstate]
    dsimp only
    rw [procPages_of_live hlive, procPages_of_live hlive', hkstack, hpgdir]
    exact hmoves.cons _

/-- `growproc` returns: the process has grown, has shrunk, is as before, or has lost all its
pages. -/
theorem growproc_cases {cur : Slot} {n r : ℤ} (howned : Owned img s)
    (hlive : (s.table.proc cur).state ≠ .unused)
    (hcall : growproc img s cur n = some (r, s')) :
    Changes s s' cur ∧ SpaceChange s (.growproc cur n) s' cur := by
  have hsound := howned.sound_dirPages hlive
  have hsz := howned.sz_lt cur hlive
  have hcommit : ∀ (sz : ℕ) (m : Mem),
      Moves s.mem (dirPages s.mem.page (s.table.proc cur).pgdir) m
        (dirPages m.page (s.table.proc cur).pgdir) →
      Changes s { s with
        mem := m, table := s.table.modify cur fun p => { p with sz := sz } } cur :=
    fun sz m hmoves => changes_of_moves hlive (fun j hj => PTable.modify_proc_of_ne hj)
      (by simp) (by simp) (by simp) hmoves
  have hfail : ∀ m : Mem, Moves s.mem (dirPages s.mem.page (s.table.proc cur).pgdir) m
        (dirPages m.page (s.table.proc cur).pgdir) → Changes s { s with mem := m } cur :=
    fun m hmoves => changes_of_moves hlive (fun _ _ => rfl) rfl rfl rfl hmoves
  unfold growproc at hcall
  split_ifs at hcall with hpos hneg
  · obtain ⟨m', halloc, hnew, hremaps⟩ | ⟨m', halloc, hremaps⟩ :=
      allocuvm_spec (wrapUint ((s.table.proc cur).sz + n)) hsz.le (howned.above cur hlive) hsound
    · simp only [halloc, Option.map_some, Option.some.injEq] at hcall
      split_ifs at hcall with hzero
      · -- 0 is an error, also when both sizes are 0
        obtain ⟨-, rfl⟩ : -1 = r ∧ { s with mem := m' } = s' := by simpa using hcall
        refine ⟨hfail m' hremaps.moves, .kept hlive rfl fun b hb => ?_⟩
        rw [hremaps.mapped_iff b hb, or_iff_left]
        omega
      · obtain ⟨-, rfl⟩ : 0 = r ∧ _ = s' := by simpa using hcall
        refine ⟨hcommit _ m' hremaps.moves, .grown _ hlive hnew (by simp) fun b hb => ?_⟩
        simpa using hremaps.mapped_iff b hb
    · simp only [halloc, Option.map_some, if_true, Option.some.injEq] at hcall
      obtain ⟨-, rfl⟩ : -1 = r ∧ { s with mem := m' } = s' := by simpa using hcall
      exact ⟨hfail m' hremaps.moves, .kept hlive rfl hremaps.mapped_iff⟩
  · by_cases hlt : wrapUint ((s.table.proc cur).sz + n) < (s.table.proc cur).sz
    · obtain ⟨m', hdealloc, hshrunk⟩ := deallocuvm_spec _ _ hsz.le hlt hsound
      simp only [hdealloc, Option.map_some, Option.some.injEq] at hcall
      split_ifs at hcall with hzero
      · obtain ⟨-, rfl⟩ : -1 = r ∧ { s with mem := m' } = s' := by simpa using hcall
        refine ⟨hfail m' hshrunk.moves, .emptied n rfl hlive hneg hzero rfl fun b hb => ?_⟩
        rw [hshrunk.mapped_iff b hb, hzero]
        have hstart : pgroundup 0 = 0 := by decide
        simp [hstart]
      · obtain ⟨-, rfl⟩ : 0 = r ∧ _ = s' := by simpa using hcall
        refine ⟨hcommit _ m' hshrunk.moves, .shrunk hlive (by simpa using hlt) fun b hb => ?_⟩
        simpa using hshrunk.mapped_iff b hb
    · simp only [deallocuvm, ge_iff_le, not_lt.mp hlt, if_true, Option.map_some,
        Option.some.injEq] at hcall
      split_ifs at hcall with hzero
      · obtain ⟨-, rfl⟩ : -1 = r ∧ _ = s' := by simpa using hcall
        exact ⟨hfail s.mem (.refl _ _), .kept hlive rfl fun _ _ => .rfl⟩
      · obtain ⟨-, rfl⟩ : 0 = r ∧ _ = s' := by simpa using hcall
        refine ⟨hcommit _ s.mem (.refl _ _), .kept hlive (by simp) fun b hb => ?_⟩
        simp
  · obtain ⟨-, rfl⟩ : 0 = r ∧ _ = s' := by simpa using hcall
    refine ⟨hcommit _ s.mem (.refl _ _), .kept hlive (by simp) fun b hb => ?_⟩
    simp

/-- The slot that `allocproc` finds is unused. -/
theorem unused_of_find {t : PTable} {np : Slot} (hfind : t.allocprocFind = some np) :
    (t.proc np).state = .unused := by
  have htest := PTable.findSlot_some hfind
  simpa using htest

/-- A process gets pages: a kernel stack and an address space. -/
theorem changes_of_new {t : PTable} {m : Mem} (hunused : (s.table.proc i).state = .unused)
    (hother : ∀ j, j ≠ i → t.proc j = s.table.proc j)
    (hmoves : Moves s.mem 0 m (procPages m.page (t.proc i))) :
    Changes s { s with table := t, mem := m } i := by
  refine ⟨fun j hj => ?_, rfl, rfl, rfl, ?_⟩
  · dsimp only
    rw [hother j hj]
    exact .refl _
  · have hnone : procPages s.mem.page (s.table.proc i) = 0 := if_pos hunused
    rw [hnone]
    exact hmoves

/-- `fork` returns: the child has a copy of the caller's memory, or its slot is free again. -/
theorem fork_cases {cur : Slot} {r : ℤ} (howned : Owned img s)
    (hlive : (s.table.proc cur).state ≠ .unused) (hcall : fork img s cur = some (r, s')) :
    s' = s ∨ ∃ np, Changes s s' np ∧ SpaceChange s (.fork cur) s' np := by
  unfold fork at hcall
  cases hfind : s.table.allocprocFind with
  | none =>
    simp only [hfind, Option.some.injEq, Prod.mk.injEq] at hcall
    exact .inl hcall.2.symm
  | some np =>
    have hunused := unused_of_find hfind
    have hne : cur ≠ np := by
      rintro rfl
      exact hlive hunused
    have hsound := howned.sound_dirPages hlive
    refine .inr ⟨np, ?_⟩
    simp only [hfind] at hcall
    cases halloc : kalloc s.mem with
    | mk kstack m₁ =>
      cases kstack with
      | none =>
        obtain ⟨rfl, -⟩ := alloc_eq_none halloc
        simp only [halloc, Option.some.injEq, Prod.mk.injEq] at hcall
        obtain ⟨-, rfl⟩ := hcall
        refine ⟨changes_of_new hunused (fun j hj => ?_) ?_, .gone ?_⟩
        · simp [PTable.allocprocFail, PTable.allocprocEmbryo, PTable.modify_proc, hj]
        · simp only [procPages, PTable.allocprocFail, PTable.modify_proc_self, if_true]
          exact .refl _ _
        · simp [PTable.allocprocFail]
      | some kstack =>
        simp only [halloc] at hcall
        have hpage := (alloc_eq_some halloc).2
        have htake := Moves.alloc halloc 0
        obtain ⟨hkstack, hsound₁⟩ := sound_kalloc hsound halloc
        rw [← hpage] at hsound₁
        set t := (s.table.allocprocEmbryo np).allocprocInit np kstack with ht
        have hcur : t.proc cur = s.table.proc cur := by
          simp [ht, PTable.allocprocInit, PTable.allocprocEmbryo, PTable.modify_proc, hne]
        have hother : ∀ j, j ≠ np → t.proc j = s.table.proc j := fun j hj => by
          simp [ht, PTable.allocprocInit, PTable.allocprocEmbryo, PTable.modify_proc, hj]
        rw [hcur] at hcall
        obtain ⟨d, m₂, hcopy, hmoves, hmapped⟩ | ⟨m₂, hcopy, hmoves⟩ | ⟨hcopy, -⟩ :=
          copyuvm_spec (howned.sz_lt cur hlive) hsound₁
        · rw [hcopy] at hcall
          simp only [Option.bind_some, Option.some.injEq, Prod.mk.injEq] at hcall
          obtain ⟨-, rfl⟩ := hcall
          have hkept : (t.proc np).kstack = kstack := by simp [ht, PTable.allocprocInit]
          have hpages : procPages m₂.page (((t.forkCopy cur np d).forkRunnable np).proc np) =
              kstack ::ₘ dirPages m₂.page d := by
            simp [procPages, PTable.forkRunnable, PTable.forkCopy, hkept]
          have hsize : (((t.forkCopy cur np d).forkRunnable np).proc np).sz =
              (s.table.proc cur).sz := by
            simp [PTable.forkRunnable, PTable.forkCopy, hcur]
          refine ⟨changes_of_new hunused (fun j hj => ?_) ?_, .copied cur hlive hsize ?_⟩
          · rw [← hother j hj]
            simp [PTable.forkRunnable, PTable.forkCopy, PTable.modify_proc, hj]
          · rw [hpages]
            exact htake.trans (hmoves.cons kstack)
          · intro b hb
            rw [hsize]
            simpa [PTable.forkRunnable, PTable.forkCopy] using hmapped b hb
        · rw [hcopy] at hcall
          simp only [Option.bind_some, kfree_eq hkstack, Option.map_some, Option.some.injEq,
            Prod.mk.injEq] at hcall
          obtain ⟨-, rfl⟩ := hcall
          refine ⟨changes_of_new hunused (fun j hj => ?_) ?_, .gone ?_⟩
          · rw [← hother j hj]
            simp [PTable.forkFail, PTable.modify_proc, hj]
          · have hnone : procPages (m₂.release (fun _ => Pte.junk) kstack).page
                ((t.forkFail np).proc np) = 0 := by simp [procPages, PTable.forkFail]
            rw [hnone]
            exact (htake.trans (hmoves.cons kstack)).trans (Moves.release m₂ _ kstack 0)
          · simp [PTable.forkFail]
        · simp [hcopy] at hcall

/-! ### `exec` -/

/-- The loop of `exec` over the program headers builds an address space of the size it
returns. -/
theorem execLoad_spec {file : ExecFile} {d n off sz : ℕ} {m m' : Mem} {r : Option ℕ}
    (hsz : sz < kernbase) (hspans : Spans m.page d sz)
    (hsound : Sound img (m.free + dirPages m.page d))
    (hcall : execLoad img file d n off sz m = some (r, m')) :
    Moves m (dirPages m.page d) m' (dirPages m'.page d) ∧
      ∀ sz', r = some sz' → sz' < kernbase ∧ Spans m'.page d sz' := by
  induction n generalizing off sz m with
  | zero =>
    obtain ⟨rfl, rfl⟩ : some sz = r ∧ m = m' := by simpa [execLoad] using hcall
    refine ⟨.refl _ _, fun sz' hsz' => ?_⟩
    obtain rfl : sz = sz' := by simpa using hsz'
    exact ⟨hsz, hspans⟩
  | succ n ih =>
    have hbad : ∀ {m₁ : Mem}, Moves m (dirPages m.page d) m₁ (dirPages m₁.page d) →
        (none, m₁) = (r, m') → Moves m (dirPages m.page d) m' (dirPages m'.page d) ∧
          ∀ sz', r = some sz' → sz' < kernbase ∧ Spans m'.page d sz' := by
      rintro m₁ hmoves heq
      obtain ⟨rfl, rfl⟩ : none = r ∧ m₁ = m' := by simpa using heq
      exact ⟨hmoves, by simp⟩
    rw [execLoad] at hcall
    cases hph : file.ph off with
    | none =>
      simp only [hph, Option.some.injEq] at hcall
      exact hbad (.refl _ _) hcall
    | some ph =>
      simp only [hph] at hcall
      by_cases htype : ph.type.toNat ≠ elfProgLoad
      · rw [if_pos htype] at hcall
        exact ih hsz hspans hsound hcall
      · rw [if_neg htype] at hcall
        by_cases hfilesz : ph.memsz < ph.filesz
        · rw [if_pos hfilesz] at hcall
          exact hbad (.refl _ _) (by simpa using hcall)
        · rw [if_neg hfilesz] at hcall
          by_cases hwrap : ph.vaddr + ph.memsz < ph.vaddr
          · rw [if_pos hwrap] at hcall
            exact hbad (.refl _ _) (by simpa using hcall)
          · rw [if_neg hwrap] at hcall
            obtain ⟨⟨sz₁, m₁⟩, halloc, hcall⟩ := Option.bind_eq_some_iff.mp hcall
            obtain ⟨hmoves, hgrown⟩ := allocuvm_spans hsz.le hspans hsound halloc
            dsimp only at hcall
            split_ifs at hcall with hzero haligned
            · exact hbad hmoves (by simpa using hcall)
            · exact hbad hmoves (by simpa using hcall)
            · obtain ⟨ok, -, hcall⟩ := Option.bind_eq_some_iff.mp hcall
              cases ok with
              | false => exact hbad hmoves (by simpa using hcall)
              | true =>
                obtain ⟨hmax, hnew, hspans₁⟩ := hgrown hzero
                have hsz₁ : sz₁ < kernbase := by omega
                obtain ⟨hrest, hresult⟩ := ih hsz₁ hspans₁ (by rwa [hmoves.total])
                  (by simpa using hcall)
                exact ⟨hmoves.trans hrest, hresult⟩

/-! ### Copying to the new image -/

/-- A word that `uva2ka` does not follow to a page, or none at all. -/
def Harmless (zero : Option Pte) : Prop := ∀ e, zero = some e → ¬ (e.p ∧ e.u)

section Copying

variable {cur : Slot} {zero : Option Pte} {d : ℕ} {m m' : Mem}

/-- The bytes that are left after one page are fewer. -/
theorem drop_page_lt (va : ℕ) {p : List UInt8} (hlen : 0 < p.length) :
    (p.drop ((pgsize - (va - pgrounddown va)) ⊓ p.length)).length < p.length := by
  rw [List.length_drop]
  unfold pgrounddown pgsize
  omega

/-- A `copyout` that follows no null pointer leaves the page tables alone. -/
theorem copyout_mem {va : ℕ} {p : List UInt8} {ok : Bool} (hzero : Harmless zero)
    (hcall : copyout s cur zero d va p m = some (ok, m')) : m' = m := by
  induction hn : p.length using Nat.strong_induction_on generalizing va p with
  | _ n ih =>
    subst hn
    rw [copyout] at hcall
    by_cases hlen : 0 < p.length
    · rw [dif_pos hlen] at hcall
      dsimp only at hcall
      cases huva : uva2ka m d (pgrounddown va) with
      | some pa0 =>
        rw [huva] at hcall
        dsimp only at hcall
        by_cases hnull : pa0.getD 0 = 0
        · rw [if_pos hnull] at hcall
          exact (Prod.mk.inj (Option.some.inj hcall)).2.symm
        · rw [if_neg hnull] at hcall
          exact ih _ (drop_page_lt va hlen) hcall rfl
      | none =>
        rw [huva] at hcall
        cases zero with
        | none => cases hcall
        | some e =>
          have hclear : !e.p || !e.u || decide (p2v e.addr = 0) := by
            have h := hzero e rfl
            cases hp : e.p <;> cases hu : e.u <;> simp_all
          dsimp only at hcall
          rw [if_pos hclear] at hcall
          exact (Prod.mk.inj (Option.some.inj hcall)).2.symm
    · rw [dif_neg hlen] at hcall
      exact (Prod.mk.inj (Option.some.inj hcall)).2.symm

/-- A `copyout` that returns without the word at address 0 returns the same with it. -/
theorem copyout_mono {va : ℕ} {p : List UInt8} {res : Bool × Mem}
    (hcall : copyout s cur none d va p m = some res) : copyout s cur zero d va p m = some res := by
  induction hn : p.length using Nat.strong_induction_on generalizing va p with
  | _ n ih =>
    subst hn
    rw [copyout] at hcall ⊢
    by_cases hlen : 0 < p.length
    · rw [dif_pos hlen] at hcall ⊢
      dsimp only at hcall ⊢
      cases huva : uva2ka m d (pgrounddown va) with
      | some pa0 =>
        rw [huva] at hcall
        dsimp only at hcall ⊢
        by_cases hnull : pa0.getD 0 = 0
        · rwa [if_pos hnull] at hcall ⊢
        · rw [if_neg hnull] at hcall ⊢
          exact ih _ (drop_page_lt va hlen) hcall rfl
      | none =>
        rw [huva] at hcall
        cases hcall
    · rwa [dif_neg hlen] at hcall ⊢

/-- Pushing the argument strings leaves the page tables alone. -/
theorem pushArgs_mem {argv : List (List UInt8)} {argc sp : ℕ} {res : Option (ℕ × List ℕ)}
    (hzero : Harmless zero) (hcall : pushArgs s cur zero d argv argc sp m = some (res, m')) :
    m' = m := by
  induction argv generalizing argc sp m res with
  | nil => exact (Prod.mk.inj (Option.some.inj hcall)).2.symm
  | cons arg argv ih =>
    rw [pushArgs] at hcall
    split_ifs at hcall
    · exact (Prod.mk.inj (Option.some.inj hcall)).2.symm
    · dsimp only at hcall
      obtain ⟨⟨ok, m₁⟩, hcopy, hrest⟩ := Option.bind_eq_some_iff.mp hcall
      have hsame := copyout_mem hzero hcopy
      dsimp only at hrest
      rw [hsame] at hrest
      split_ifs at hrest
      · obtain ⟨⟨res₁, m₂⟩, hpush, heq⟩ := Option.map_eq_some_iff.mp hrest
        obtain ⟨-, rfl⟩ := Prod.mk.inj heq
        exact ih hpush
      · exact (Prod.mk.inj (Option.some.inj hrest)).2.symm

theorem pushArgs_mono {argv : List (List UInt8)} {argc sp : ℕ} {res : Option (ℕ × List ℕ) × Mem}
    (hcall : pushArgs s cur none d argv argc sp m = some res) :
    pushArgs s cur zero d argv argc sp m = some res := by
  induction argv generalizing argc sp m res with
  | nil => exact hcall
  | cons arg argv ih =>
    rw [pushArgs] at hcall ⊢
    split_ifs at hcall ⊢
    · exact hcall
    · dsimp only at hcall ⊢
      obtain ⟨⟨ok, m₁⟩, hcopy, hcall⟩ := Option.bind_eq_some_iff.mp hcall
      rw [copyout_mono hcopy, Option.bind_some]
      dsimp only at hcall ⊢
      split_ifs at hcall ⊢
      · obtain ⟨res₁, hpush, heq⟩ := Option.map_eq_some_iff.mp hcall
        rw [ih hpush, Option.map_some, heq]
      · exact hcall

/-- An `exec` that returns without the word at address 0 returns the same with it. -/
theorem exec_mono {path : String} {file : Option ExecFile} {argv : List (List UInt8)}
    {res : ℤ × State} (hcall : exec img s cur none path file argv = some res) :
    exec img s cur zero path file argv = some res := by
  cases file with
  | none => exact hcall
  | some file =>
    rw [exec] at hcall ⊢
    dsimp only at hcall ⊢
    cases helf : file.elf with
    | none => rwa [helf] at hcall
    | some elf =>
      rw [helf] at hcall
      dsimp only at hcall ⊢
      split_ifs at hcall ⊢
      · exact hcall
      · obtain ⟨⟨_ | d, m₁⟩, hsetup, hcall⟩ := Option.bind_eq_some_iff.mp hcall
        · rw [hsetup]
          exact hcall
        · obtain ⟨⟨res₁, m₂⟩, himage, hcall⟩ := Option.bind_eq_some_iff.mp hcall
          rw [hsetup, Option.bind_some]
          dsimp only
          have himage' : execImage img s cur zero file elf d argv m₁ = some (res₁, m₂) := by
            rw [execImage] at himage ⊢
            obtain ⟨⟨_ | sz, m₃⟩, hload, himage⟩ := Option.bind_eq_some_iff.mp himage
            · rw [hload]
              exact himage
            · rw [hload, Option.bind_some]
              dsimp only at himage ⊢
              rw [execStack] at himage ⊢
              obtain ⟨⟨sz₁, m₄⟩, halloc, himage⟩ := Option.bind_eq_some_iff.mp himage
              rw [halloc, Option.bind_some]
              dsimp only at himage ⊢
              split_ifs at himage ⊢
              · exact himage
              · obtain ⟨m₅, hclear, himage⟩ := Option.bind_eq_some_iff.mp himage
                obtain ⟨⟨args, m₆⟩, hpush, himage⟩ := Option.bind_eq_some_iff.mp himage
                rw [hclear, Option.bind_some, pushArgs_mono hpush, Option.bind_some]
                obtain _ | ⟨sp, ptrs⟩ := args
                · exact himage
                · dsimp only at himage ⊢
                  obtain ⟨res₂, hcopy, heq⟩ := Option.map_eq_some_iff.mp himage
                  rw [copyout_mono hcopy, Option.map_some, heq]
          rw [himage', Option.bind_some]
          exact hcall

end Copying

/-- `exec` between `setupkvm` and the commit builds an address space of the size it returns. -/
theorem execImage_spec {cur : Slot} {zero : Option Pte} {file : ExecFile} {elf : ElfHdr}
    {argv : List (List UInt8)} {d : ℕ} {m m' : Mem} {r : Option ℕ} (hharmless : Harmless zero)
    (hspans : Spans m.page d 0) (hsound : Sound img (m.free + dirPages m.page d))
    (hcall : execImage img s cur zero file elf d argv m = some (r, m')) :
    Moves m (dirPages m.page d) m' (dirPages m'.page d) ∧
      ∀ sz, r = some sz → sz < kernbase ∧ Spans m'.page d sz := by
  obtain ⟨⟨r₁, m₁⟩, hload, hcall⟩ := Option.bind_eq_some_iff.mp hcall
  obtain ⟨hmoves₁, hresult₁⟩ := execLoad_spec (by unfold kernbase; omega) hspans hsound hload
  have hbad : ∀ {m₂ : Mem}, Moves m (dirPages m.page d) m₂ (dirPages m₂.page d) →
      (none, m₂) = (r, m') → Moves m (dirPages m.page d) m' (dirPages m'.page d) ∧
        ∀ sz, r = some sz → sz < kernbase ∧ Spans m'.page d sz := by
    rintro m₂ hmoves heq
    obtain ⟨rfl, rfl⟩ : none = r ∧ m₂ = m' := by simpa using heq
    exact ⟨hmoves, by simp⟩
  cases r₁ with
  | none => exact hbad hmoves₁ (by simpa using hcall)
  | some sz =>
    obtain ⟨hsz, hspans₁⟩ := hresult₁ sz rfl
    unfold kernbase at hsz
    have hround : pgroundup (pgroundup sz) = pgroundup sz := by unfold pgroundup pgsize; omega
    have hle : pgroundup sz ≤ kernbase := by unfold pgroundup pgsize kernbase; omega
    have hspans₁' : Spans m₁.page d (pgroundup sz) := fun b hb => by rw [hspans₁ b hb, hround]
    obtain ⟨⟨sz₂, m₂⟩, halloc, hcall⟩ := Option.bind_eq_some_iff.mp hcall
    obtain ⟨hmoves₂, hgrown⟩ := allocuvm_spans hle hspans₁' (by rwa [hmoves₁.total]) halloc
    dsimp only at hcall
    split_ifs at hcall with hzero
    · exact hbad (hmoves₁.trans hmoves₂) (by simpa using hcall)
    · obtain ⟨hmax, hnew, hspans₂⟩ := hgrown hzero
      have hsize : sz₂ = pgroundup sz + 2 * pgsize := by
        unfold kernbase pgsize at *
        omega
      have hsz₂ : sz₂ < kernbase := by
        unfold kernbase pgsize at *
        omega
      have hguard : Mapped m₂.page d (sz₂ - 2 * pgsize) := by
        refine (hspans₂ _ (by omega)).mpr ?_
        unfold kernbase at hsz₂
        unfold pgroundup pgsize at *
        omega
      have hsound₂ : Sound img (m₂.free + dirPages m₂.page d) := by
        rwa [hmoves₂.total, hmoves₁.total]
      obtain ⟨m₃, hclear, hremaps⟩ := clearpteu_spec hguard hsound₂
      have hmoves₃ := (hmoves₁.trans hmoves₂).trans hremaps.moves
      rw [hclear, Option.bind_some] at hcall
      obtain ⟨⟨args, m₄⟩, hpush, hcall⟩ := Option.bind_eq_some_iff.mp hcall
      obtain rfl := pushArgs_mem hharmless hpush
      cases args with
      | none => exact hbad hmoves₃ (by simpa using hcall)
      | some args =>
        obtain ⟨⟨ok, m₅⟩, hcopy, hcall⟩ := Option.map_eq_some_iff.mp hcall
        obtain rfl := copyout_mem hharmless hcopy
        cases ok with
        | false => exact hbad hmoves₃ (by simpa using hcall)
        | true =>
          obtain ⟨rfl, rfl⟩ : some sz₂ = r ∧ m₅ = m' := by simpa using hcall
          refine ⟨hmoves₃, fun sz' hsz' => ?_⟩
          obtain rfl : sz₂ = sz' := by simpa using hsz'
          refine ⟨hsz₂, fun b hb => ?_⟩
          have hb' := hb
          unfold kernbase at hb
          rw [hremaps.mapped_iff b (by omega), hspans₂ b hb']

/-- A computation that gives back all it took leaves every address space alone. -/
theorem changes_of_restored {m : Mem} (howned : Owned img s)
    (hlive : (s.table.proc i).state ≠ .unused) (hmoves : Moves s.mem 0 m 0) :
    Changes s { s with mem := m } i ∧
      ∀ b, (Mapped m.page (s.table.proc i).pgdir b ↔
        Mapped s.mem.page (s.table.proc i).pgdir b) := by
  have hsound := howned.sound_dirPages hlive
  have hframe := frame_dirPages hmoves (by simpa using hsound.nodup) le_rfl
  refine ⟨changes_of_moves hlive (fun _ _ => rfl) rfl rfl rfl ?_, hframe.2⟩
  rw [hframe.1]
  simpa using hmoves.add (dirPages s.mem.page (s.table.proc i).pgdir)

/-- `exec` returns: the process has a new image, or is as before. -/
theorem exec_cases {cur : Slot} {zero : Option Pte} {path : String} {file : Option ExecFile}
    {argv : List (List UInt8)} {word : Pte} {r : ℤ} (hzero : Harmless zero) (howned : Owned img s)
    (hlive : (s.table.proc cur).state ≠ .unused)
    (hcall : exec img s cur zero path file argv = some (r, s')) :
    s' = s ∨ Changes s s' cur ∧ SpaceChange s (.exec cur path file argv word) s' cur := by
  have hsound := howned.sound_dirPages hlive
  have hfree : Sound img s.mem.free := hsound.mono (Multiset.le_add_right _ _)
  have hrestored : ∀ {m : Mem}, Moves s.mem 0 m 0 → (-1, { s with mem := m }) = (r, s') →
      s' = s ∨ Changes s s' cur ∧ SpaceChange s (.exec cur path file argv word) s' cur := by
    rintro m hmoves heq
    obtain ⟨-, rfl⟩ : -1 = r ∧ { s with mem := m } = s' := by simpa using heq
    obtain ⟨hchanges, hmapped⟩ := changes_of_restored howned hlive hmoves
    exact .inr ⟨hchanges, .kept hlive rfl fun b _ => hmapped b⟩
  unfold exec at hcall
  cases file with
  | none => exact .inl (by simpa using (congrArg Prod.snd (Option.some.inj hcall)).symm)
  | some file =>
    dsimp only at hcall
    cases helf : file.elf with
    | none =>
      simp only [helf, Option.some.injEq, Prod.mk.injEq] at hcall
      exact .inl hcall.2.symm
    | some elf =>
      simp only [helf] at hcall
      by_cases hmagic : elf.magic.toNat ≠ elfMagic
      · rw [if_pos hmagic] at hcall
        simp only [Option.some.injEq, Prod.mk.injEq] at hcall
        exact .inl hcall.2.symm
      · rw [if_neg hmagic] at hcall
        obtain ⟨d, m₁, hsetup, hmoves₁, hkernel⟩ | ⟨m₁, hsetup, hmoves₁, -⟩ := setupkvm_spec hfree
        · rw [hsetup, Option.bind_some] at hcall
          obtain ⟨⟨r₁, m₂⟩, himage, hcall⟩ := Option.bind_eq_some_iff.mp hcall
          have hspans : Spans m₁.page d 0 := fun b hb => by
            have hzero : pgroundup 0 = 0 := by decide
            rw [hzero]
            exact ⟨fun h => absurd h (hkernel.not_mapped hb), by omega⟩
          have hsound₁ : Sound img (m₁.free + dirPages m₁.page d) := by
            rwa [hmoves₁.total, add_zero]
          obtain ⟨hmoves₂, hresult⟩ := execImage_spec hzero hspans hsound₁ himage
          have hnew := hmoves₁.trans hmoves₂
          cases r₁ with
          | none =>
            have hsound₂ : Sound img (m₂.free + dirPages m₂.page d) := by rwa [hmoves₂.total]
            obtain ⟨m₃, hfreevm, hmoves₃⟩ := freevm_spec hsound₂
            simp only [hfreevm, Option.map_some, Option.some.injEq] at hcall
            exact hrestored (hnew.trans hmoves₃) hcall
          | some sz =>
            obtain ⟨hsz, hspans₂⟩ := hresult sz rfl
            obtain ⟨hold, -⟩ := frame_dirPages hnew (by simpa using hsound.nodup) le_rfl
            have hparts : (m₂.free : Multiset ℕ) + dirPages m₂.page d = s.mem.free := by
              rw [hnew.total, add_zero]
            have hsound₂ : Sound img (m₂.free + dirPages m₂.page d +
                dirPages m₂.page (s.table.proc cur).pgdir) := by
              rwa [hparts, hold]
            have hsound₂' : Sound img (m₂.free + dirPages m₂.page (s.table.proc cur).pgdir) :=
              hsound₂.mono (add_le_add_left (Multiset.le_add_right _ _) _)
            obtain ⟨m₃, hfreevm, hmoves₃⟩ := freevm_spec hsound₂'
            have hnodup := hsound₂.nodup
            rw [add_right_comm] at hnodup
            obtain ⟨hpages, hmapped⟩ := frame_dirPages hmoves₃ hnodup le_rfl
            simp only [hfreevm, Option.map_some, Option.some.injEq, Prod.mk.injEq] at hcall
            obtain ⟨-, rfl⟩ := hcall
            have hswap : Moves s.mem (dirPages s.mem.page (s.table.proc cur).pgdir) m₃
                (dirPages m₃.page d) := by
              have hbuild := hnew.add (dirPages s.mem.page (s.table.proc cur).pgdir)
              have hfree₃ := hmoves₃.add (dirPages m₂.page d)
              rw [zero_add] at hbuild hfree₃
              rw [hpages]
              rw [hold, add_comm] at hfree₃
              exact hbuild.trans hfree₃
            refine .inr ⟨⟨fun j hj => ?_, rfl, rfl, rfl, ?_⟩, .loaded (by simpa using hsz) ?_⟩
            · dsimp only
              rw [PTable.modify_proc_of_ne hj]
              exact .refl _
            · dsimp only
              rw [procPages_of_live hlive, procPages_of_live (by simpa using hlive)]
              simpa using hswap.cons (s.table.proc cur).kstack
            · intro b hb
              simpa [hmapped b] using hspans₂ b hb
        · rw [hsetup] at hcall
          exact hrestored hmoves₁ (by simpa using hcall)

/-! ### The other calls -/

/-- The memory of every process stays, and so do the places of pages. -/
structure Unchanged (s s' : State) : Prop where
  /-- Stacks, page tables and sizes stay. -/
  space : ∀ j, SameSpace (s.table.proc j) (s'.table.proc j)
  /-- The places of pages stay. -/
  places_eq : places s' = places s
  /-- The mappings stay. -/
  mapped_iff : ∀ j, (s.table.proc j).state ≠ .unused → ∀ b,
    (Mapped s'.mem.page (s.table.proc j).pgdir b ↔ Mapped s.mem.page (s.table.proc j).pgdir b)

/-- A change of the table that leaves the memory of the processes alone. -/
theorem unchanged_of_table {t : PTable}
    (hsame : ∀ j, SameSpace (s.table.proc j) (t.proc j)) : Unchanged s { s with table := t } := by
  refine ⟨hsame, ?_, fun _ _ _ => .rfl⟩
  have hpages : ∀ j, procPages s.mem.page (t.proc j) = procPages s.mem.page (s.table.proc j) :=
    fun j => (hsame j).procPages_eq _
  unfold places inUse
  dsimp only
  rw [gather_congr hpages]

theorem sameSpace_modify {t : PTable} {f : Proc → Proc} (hf : SameSpace (t.proc i) (f (t.proc i)))
    (j : Slot) : SameSpace (t.proc j) ((t.modify i f).proc j) := by
  by_cases hj : j = i
  · rw [hj, PTable.modify_proc_self]
    exact hf
  · rw [PTable.modify_proc_of_ne hj]
    exact .refl _

theorem sameSpace_wakeup1 (t : PTable) (chan : Option Chan) (j : Slot) :
    SameSpace (t.proc j) ((t.wakeup1 chan).proc j) := by
  unfold PTable.wakeup1
  rw [PTable.map_proc]
  split_ifs with hasleep
  · exact ⟨rfl, rfl, rfl, by simp [hasleep.1]⟩
  · exact .refl _

theorem sameSpace_exitAdopt (cur i : Slot) (t : PTable) (j : Slot) :
    SameSpace (t.proc j) ((PTable.exitAdopt cur t i).proc j) := by
  have hadopt : ∀ k, SameSpace (t.proc k)
      ((t.modify i fun p => { p with parent := t.initproc }).proc k) :=
    sameSpace_modify ⟨rfl, rfl, rfl, .rfl⟩
  unfold PTable.exitAdopt
  dsimp only
  split_ifs
  · exact (hadopt j).trans (sameSpace_wakeup1 _ _ j)
  · exact hadopt j
  · exact .refl _

theorem sameSpace_adoptAll (cur : Slot) (is : List Slot) (t : PTable) (j : Slot) :
    SameSpace (t.proc j) ((is.foldl (PTable.exitAdopt cur) t).proc j) := by
  induction is generalizing t with
  | nil => exact .refl _
  | cons i is ih => exact (sameSpace_exitAdopt cur i t j).trans (ih _)

theorem sameSpace_exit {cur : Slot} {t : PTable} (hlive : (t.proc cur).state ≠ .unused)
    (j : Slot) : SameSpace (t.proc j) ((t.exit cur).proc j) := by
  have hfamily : ∀ k, SameSpace (t.proc k) ((t.exitFamily cur).proc k) := by
    intro k
    unfold PTable.exitFamily
    generalize List.finRange nproc = is
    have hgiven := sameSpace_modify (t := t) (i := cur)
      (f := fun p => { p with ofile := fun _ => 0, cwd := 0 }) ⟨rfl, rfl, rfl, .rfl⟩ k
    exact (hgiven.trans (sameSpace_wakeup1 _ _ k)).trans (sameSpace_adoptAll cur is _ k)
  unfold PTable.exit
  generalize t.exitFamily cur = u at hfamily
  have hstill : (u.proc cur).state ≠ .unused := fun h => hlive ((hfamily cur).unused.mp h)
  exact (hfamily j).trans (sameSpace_modify ⟨rfl, rfl, rfl, by simp [hstill]⟩ j)

theorem sameSpace_sleep {cur : Slot} {t : PTable} (hlive : (t.proc cur).state ≠ .unused)
    (chan : Option Chan) (j : Slot) : SameSpace (t.proc j) ((t.sleep cur chan).proc j) := by
  unfold PTable.sleep
  exact sameSpace_modify ⟨rfl, rfl, rfl, by simp [hlive]⟩ j

theorem sameSpace_kill (t : PTable) (pid : ℤ) (j : Slot) :
    SameSpace (t.proc j) ((t.kill pid).2.proc j) := by
  unfold PTable.kill
  split
  · dsimp only
    refine sameSpace_modify ⟨rfl, rfl, rfl, ?_⟩ j
    split_ifs with hasleep
    · simp [hasleep]
    · rfl
  · exact .refl _

/-- `wait` frees the memory of a zombie child, or leaves all memory alone. -/
theorem wait_cases {cur : Slot} (howned : Owned img s)
    (hlive : (s.table.proc cur).state ≠ .unused) (hcall : wait img s cur = some s') :
    (∃ i, Changes s s' i ∧ SpaceChange s (.wait cur) s' i) ∨ Unchanged s s' := by
  unfold wait zombieChild at hcall
  unfold PTable.wait at hcall
  cases hfind : s.table.findSlot fun p => p.parent == some cur && p.state == .zombie with
  | some i =>
    have htest := PTable.findSlot_some hfind
    simp only [Bool.and_eq_true, beq_iff_eq] at htest
    have hzombie : (s.table.proc i).state ≠ .unused := by simp [htest.2]
    have hsound := howned.sound i
    rw [procPages_of_live hzombie] at hsound
    have hkstack : Allocatable img (s.table.proc i).kstack := hsound.allocatable _ (by simp)
    have hrelease := Moves.release s.mem (fun _ => Pte.junk) (s.table.proc i).kstack
      (dirPages s.mem.page (s.table.proc i).pgdir)
    obtain ⟨hpages, -⟩ := release_frame (Multiset.nodup_add.mp hsound.nodup).2.1
    rw [← hrelease.total, ← hpages] at hsound
    obtain ⟨m, hfreevm, hmoves⟩ := freevm_spec hsound
    rw [hpages] at hmoves
    simp only [hfind, kfree_eq hkstack, Option.bind_some, hfreevm, Option.map_some,
      Option.some.injEq] at hcall
    subst hcall
    refine .inl ⟨i, ⟨fun j hj => ?_, rfl, rfl, rfl, ?_⟩, .gone (by simp)⟩
    · dsimp only
      rw [PTable.modify_proc_of_ne hj]
      exact .refl _
    · dsimp only
      have hnone : procPages m.page ((s.table.modify i fun p =>
          { p with kstack := 0, pid := 0, parent := none, name := "", killed := 0,
                   state := .unused }).proc i) = 0 := by simp [procPages]
      rw [hnone, procPages_of_live hzombie]
      exact hrelease.trans hmoves
  | none =>
    simp only [hfind] at hcall
    refine .inr ?_
    split_ifs at hcall with hfail
    · obtain rfl : s = s' := by simpa using hcall
      exact unchanged_of_table fun _ => .refl _
    · simp only [Option.some.injEq] at hcall
      subst hcall
      exact unchanged_of_table (sameSpace_sleep hlive _)

/-- The pages in use without the pipes. -/
def besidesPipes (s : State) : Multiset ℕ :=
  (s.cpuStacks : Multiset ℕ) + dirPages s.mem.page s.kpgdir +
    gather fun i => procPages s.mem.page (s.table.proc i)

/-- A step that changes the pipes only. -/
theorem unchanged_of_pipes {m : Mem} {pipes : List PipePage} {held held' : Multiset ℕ}
    (rest : Multiset ℕ) (hnodup : (places s).Nodup) (hmoves : Moves s.mem held m held')
    (hold : ((s.pipes.map (·.page) : List ℕ) : Multiset ℕ) = held + rest)
    (hnew : ((pipes.map (·.page) : List ℕ) : Multiset ℕ) = held' + rest) :
    Unchanged s { s with mem := m, pipes := pipes } := by
  have hplaces : places s = s.mem.free + held + (rest + besidesPipes s) := by
    rw [places, inUse, hold, besidesPipes]
    abel
  have hframe : ∀ d, dirPages s.mem.page d ≤ besidesPipes s →
      dirPages m.page d = dirPages s.mem.page d ∧
        ∀ b, Mapped m.page d b ↔ Mapped s.mem.page d b := fun d hle =>
    frame_dirPages hmoves (hplaces ▸ hnodup) (hle.trans (Multiset.le_add_left _ _))
  have hproc : ∀ j, (s.table.proc j).state ≠ .unused →
      dirPages s.mem.page (s.table.proc j).pgdir ≤ besidesPipes s := by
    intro j hlive
    have hle := le_gather (fun i => procPages s.mem.page (s.table.proc i)) j
    rw [procPages_of_live hlive] at hle
    exact ((Multiset.le_cons_self _ _).trans hle).trans (Multiset.le_add_left _ _)
  have hkernel : dirPages m.page s.kpgdir = dirPages s.mem.page s.kpgdir := by
    refine (hframe _ ?_).1
    exact (Multiset.le_add_left _ _).trans (Multiset.le_add_right _ _)
  have hprocs : ∀ j, procPages m.page (s.table.proc j) = procPages s.mem.page (s.table.proc j) := by
    intro j
    unfold procPages
    split_ifs with hunused
    · rfl
    · rw [(hframe _ (hproc j hunused)).1]
  refine ⟨fun _ => .refl _, ?_, fun j hlive => (hframe _ (hproc j hlive)).2⟩
  have htotal := hmoves.total
  rw [hplaces, places, inUse, besidesPipes]
  dsimp only
  rw [hkernel, gather_congr hprocs, hnew]
  calc _ = (m.free + held') + (rest + ((s.cpuStacks : Multiset ℕ) + dirPages s.mem.page s.kpgdir +
        gather fun i => procPages s.mem.page (s.table.proc i))) := by abel
    _ = _ := by rw [htotal]

theorem unchanged_pipealloc (howned : Owned img s) (files : Bool) :
    Unchanged s (pipealloc s files) := by
  unfold pipealloc
  split_ifs with hfiles
  · cases halloc : kalloc s.mem with
    | mk p m =>
      cases p with
      | none =>
        obtain ⟨rfl, -⟩ := alloc_eq_none halloc
        exact unchanged_of_table fun _ => .refl _
      | some p =>
        refine unchanged_of_pipes _ howned.nodup (Moves.alloc halloc 0) (zero_add _).symm ?_
        simp
  · exact unchanged_of_table fun _ => .refl _

theorem unchanged_pipeclose {p : PipePage} {writable : Bool} (howned : Owned img s)
    (hmem : p ∈ s.pipes) (hcall : pipeclose img s p writable = some s') : Unchanged s s' := by
  have hpipes : ((s.pipes.map (·.page) : List ℕ) : Multiset ℕ) =
      {p.page} + ((s.pipes.erase p).map (·.page) : List ℕ) := by
    have hperm := (List.perm_cons_erase hmem).map (·.page)
    rw [Multiset.coe_eq_coe.mpr hperm]
    rfl
  have hpage : Allocatable img p.page := by
    refine allocatable_iff.mpr ?_
    rw [← howned.places_eq, places, inUse, hpipes]
    simp
  have hfree : (kfree img s.mem p.page).map
      (fun m => { s with mem := m, pipes := s.pipes.erase p }) = some s' → Unchanged s s' := by
    intro hcall
    simp only [kfree_eq hpage, Option.map_some, Option.some.injEq] at hcall
    subst hcall
    exact unchanged_of_pipes _ howned.nodup (Moves.release s.mem (fun _ => Pte.junk) p.page 0)
      hpipes (zero_add _).symm
  have hkeep : ∀ p' : PipePage, p'.page = p.page →
      some { s with pipes := p' :: s.pipes.erase p } = some s' → Unchanged s s' := by
    intro p' hsame hcall
    simp only [Option.some.injEq] at hcall
    subst hcall
    refine unchanged_of_pipes _ howned.nodup (Moves.refl s.mem {p.page}) hpipes ?_
    rw [List.map_cons, hsame]
    rfl
  unfold pipeclose at hcall
  cases writable with
  | true =>
    simp only [if_true] at hcall
    split_ifs at hcall
    · exact hfree hcall
    · exact hkeep { p with writeopen := false } rfl hcall
  | false =>
    simp only [Bool.false_eq_true, if_false] at hcall
    split_ifs at hcall
    · exact hfree hcall
    · exact hkeep { p with readopen := false } rfl hcall

/-- The step is not an `exec` that dereferences a null pointer while the word at address 0 of the
caller has `PTE_P` and `PTE_U` set: without that word it would return as well. -/
def FollowsNoNull (img : KernelImage) (s : State) : Action → Prop
  | .exec cur path file argv word =>
      word.p → word.u → exec img s cur none path file argv ≠ none
  | _ => True

/-- What a step can do to memory: it changes the memory of one process in one of the ways of
`SpaceChange`, or leaves the memory of all processes alone. -/
theorem step_cases {a : Action} (howned : Owned img s) (hnull : FollowsNoNull img s a)
    (hstep : step img s a = some s') :
    (∃ i, Changes s s' i ∧ SpaceChange s a s' i) ∨ Unchanged s s' := by
  obtain ⟨henabled, heffect⟩ := step_eq_some.mp hstep
  have hlive : ∀ {i}, (s.table.proc i).state = .running → (s.table.proc i).state ≠ .unused :=
    fun h => by simp [h]
  have htable : ∀ {t : PTable}, (∀ j, SameSpace (s.table.proc j) (t.proc j)) →
      some { s with table := t } = some s' →
      (∃ i, Changes s s' i ∧ SpaceChange s a s' i) ∨ Unchanged s s' := by
    intro t hsame heq
    obtain rfl := Option.some.inj heq
    exact .inr (unchanged_of_table hsame)
  cases a with
  | fork cur =>
    obtain ⟨⟨r, _⟩, hcall, rfl⟩ := Option.map_eq_some_iff.mp heffect
    rcases fork_cases howned (hlive henabled) hcall with heq | hchanges
    · exact .inr (heq ▸ unchanged_of_table fun _ => .refl _)
    · exact .inl hchanges
  | exec cur path file argv word =>
    obtain ⟨⟨r, _⟩, hcall, rfl⟩ := Option.map_eq_some_iff.mp heffect
    obtain ⟨zero, hzero, hcall⟩ : ∃ zero, Harmless zero ∧
        exec img s cur zero path file argv = some (r, _) := by
      by_cases hbits : word.p ∧ word.u
      · obtain ⟨res, hclean⟩ := Option.ne_none_iff_exists'.mp (hnull hbits.1 hbits.2)
        have hsame := @exec_mono img s cur (zeroWord s cur word) _ _ _ _ hclean
        rw [hcall] at hsame
        exact ⟨none, (fun e h => by cases h), hclean.trans hsame.symm⟩
      · refine ⟨_, fun e h => ?_, hcall⟩
        unfold zeroWord at h
        split_ifs at h
        exact Option.some.inj h ▸ hbits
    rcases exec_cases hzero howned (hlive henabled) hcall with heq | hchanges
    · exact .inr (heq ▸ unchanged_of_table fun _ => .refl _)
    · exact .inl ⟨cur, hchanges⟩
  | growproc cur n =>
    obtain ⟨⟨r, _⟩, hcall, rfl⟩ := Option.map_eq_some_iff.mp heffect
    exact .inl ⟨cur, growproc_cases howned (hlive henabled.1) hcall⟩
  | exit cur =>
    have hexit : exit s cur = some s' := heffect
    unfold exit at hexit
    split_ifs at hexit
    exact htable (sameSpace_exit (hlive henabled)) hexit
  | wait cur => exact wait_cases howned (hlive henabled) heffect
  | pipealloc files =>
    obtain rfl := Option.some.inj heffect
    exact .inr (unchanged_pipealloc howned files)
  | pipeclose p writable => exact .inr (unchanged_pipeclose howned henabled.1 heffect)
  | kill pid => exact htable (sameSpace_kill _ pid) heffect
  | dispatch i =>
    refine htable (fun j => ?_) heffect
    have hrunnable : (s.table.proc i).state ≠ .unused := by
      have h : (s.table.proc i).state = .runnable := henabled
      simp [h]
    unfold PTable.dispatch
    exact sameSpace_modify ⟨rfl, rfl, rfl, by simp [hrunnable]⟩ j
  | yield i =>
    refine htable (fun j => ?_) heffect
    have hrunning : (s.table.proc i).state ≠ .unused := hlive henabled
    unfold PTable.yield
    exact sameSpace_modify ⟨rfl, rfl, rfl, by simp [hrunning]⟩ j
  | sleep i chan => exact htable (sameSpace_sleep (hlive henabled) _) heffect
  | resume i =>
    refine htable (fun j => ?_) heffect
    unfold PTable.sleepReturn
    exact sameSpace_modify ⟨rfl, rfl, rfl, .rfl⟩ j
  | wakeup chan => exact htable (sameSpace_wakeup1 _ _) heffect
  | tick =>
    have hticks : ∀ j, SameSpace (s.table.proc j)
        ({ s.table with ticks := wrapUint (s.table.ticks + 1) }.proc j) := fun _ => .refl _
    exact htable hticks heffect

theorem of_pgroundup_max_le {x y b : ℕ} (hx : x < kernbase) (hy : y < kernbase)
    (hle : pgroundup (max x y) ≤ b) : pgroundup x ≤ b ∧ ¬ b / 4096 * 4096 < y := by
  unfold kernbase at hx hy
  unfold pgroundup pgsize at hle ⊢
  rcases le_total x y with hxy | hxy
  · rw [max_eq_right hxy] at hle
    omega
  · rw [max_eq_left hxy] at hle
    omega

theorem pgroundup_le_of_not {x y b : ℕ} (hx : x < kernbase) (hle : pgroundup y ≤ b)
    (hout : ¬ (pgroundup y ≤ b ∧ b / 4096 * 4096 < x)) : pgroundup x ≤ b := by
  have hb : ¬ b / 4096 * 4096 < x := fun h => hout ⟨hle, h⟩
  clear hout hle
  unfold kernbase at hx
  unfold pgroundup pgsize
  omega

/-- A change of the memory of one process keeps the owners of pages. -/
theorem Owned.change {a : Action} (howned : Owned img s) (hchanges : Changes s s' i)
    (hspace : SpaceChange s a s' i) : Owned img s' := by
  obtain ⟨hplaces, hmapped⟩ := hchanges.frame howned.nodup
  have hi : (s'.table.proc i).state ≠ .unused → (s'.table.proc i).sz < kernbase ∧
      ∀ b < kernbase, pgroundup (s'.table.proc i).sz ≤ b →
        ¬ Mapped s'.mem.page (s'.table.proc i).pgdir b := by
    intro hlive
    cases hspace with
    | gone hgone => exact absurd hgone hlive
    | copied j hj hsz hcopy =>
      have hlt := howned.sz_lt j hj
      rw [← hsz] at hlt
      refine ⟨hlt, fun b hb hle hmapped => ?_⟩
      have hbelow := (hcopy b hb).mp hmapped
      unfold kernbase at hlt
      unfold pgroundup pgsize at hle
      omega
    | loaded hsz hspans => exact ⟨hsz, fun b hb hle h => absurd ((hspans b hb).mp h) (by omega)⟩
    | grown newsz hold hnew hsz hgrown =>
      have hlt := howned.sz_lt i hold
      refine ⟨by omega, fun b hb hle hmapped => ?_⟩
      rw [hsz] at hle
      have hb' := hb
      obtain ⟨hbefore, hafter⟩ := of_pgroundup_max_le hlt hnew hle
      unfold kernbase at hb
      rcases (hgrown b (by omega)).mp hmapped with h | h
      · exact howned.above i hold b hb' hbefore h
      · exact hafter h.2
    | kept hold hsz hkept =>
      rw [hsz]
      refine ⟨howned.sz_lt i hold, fun b hb hle hmapped => ?_⟩
      have hb' := hb
      unfold kernbase at hb
      exact howned.above i hold b hb' hle ((hkept b (by omega)).mp hmapped)
    | shrunk hold hsz hshrunk =>
      have hlt := howned.sz_lt i hold
      refine ⟨by omega, fun b hb hle hmapped => ?_⟩
      have hb' := hb
      unfold kernbase at hb
      obtain ⟨hbefore, hout⟩ := (hshrunk b (by omega)).mp hmapped
      exact howned.above i hold b hb' (pgroundup_le_of_not hlt hle hout) hbefore
    | emptied n _ hold _ _ hsz hemptied =>
      rw [hsz]
      refine ⟨howned.sz_lt i hold, fun b hb hle hmapped => ?_⟩
      have hb' := hb
      unfold kernbase at hb
      exact howned.above i hold b hb' hle ((hemptied b (by omega)).mp hmapped).1
  have hother : ∀ j, j ≠ i → (s'.table.proc j).state ≠ .unused →
      (s.table.proc j).state ≠ .unused := fun j hj hlive h =>
    hlive ((hchanges.other j hj).unused.mpr h)
  refine ⟨hplaces.trans howned.places_eq, fun j hlive => ?_, fun j hlive b hb hle h => ?_⟩
  · by_cases hj : j = i
    · exact hj ▸ (hi (hj ▸ hlive)).1
    · rw [(hchanges.other j hj).sz]
      exact howned.sz_lt j (hother j hj hlive)
  · by_cases hj : j = i
    · subst hj
      exact (hi hlive).2 b hb hle h
    · rw [(hchanges.other j hj).sz] at hle
      exact howned.above j (hother j hj hlive) b hb hle
        ((hmapped j hj (hother j hj hlive) b).mp h)

/-- A step that leaves all memory alone keeps the owners of pages. -/
theorem Owned.unchanged (howned : Owned img s) (hsame : Unchanged s s') : Owned img s' := by
  have hlive : ∀ j, (s'.table.proc j).state ≠ .unused → (s.table.proc j).state ≠ .unused :=
    fun j hlive h => hlive ((hsame.space j).unused.mpr h)
  refine ⟨hsame.places_eq.trans howned.places_eq, fun j hj => ?_, fun j hj b hb hle h => ?_⟩
  · rw [(hsame.space j).sz]
    exact howned.sz_lt j (hlive j hj)
  · rw [(hsame.space j).sz] at hle
    rw [(hsame.space j).pgdir] at h
    exact howned.above j (hlive j hj) b hb hle ((hsame.mapped_iff j (hlive j hj) b).mp h)

/-- Every step keeps the owners of pages, unless `exec` follows a null pointer. -/
theorem Owned.step {a : Action} (howned : Owned img s) (hnull : FollowsNoNull img s a)
    (hstep : step img s a = some s') : Owned img s' := by
  rcases step_cases howned hnull hstep with ⟨i, hchanges, hspace⟩ | hsame
  · exact howned.change hchanges hspace
  · exact howned.unchanged hsame

/-! ## Boot -/

/-- `startothers` takes the stacks from the free list. -/
theorem startothers_spec (n : ℕ) (m : Mem) :
    Moves m 0 (startothers n m).2 ((startothers n m).1 : Multiset ℕ) ∧
      (startothers n m).2.page = m.page ∧
      m.free.length ≤ (startothers n m).2.free.length + n := by
  induction n generalizing m with
  | zero => exact ⟨.refl _ _, rfl, le_rfl⟩
  | succ n ih =>
    cases halloc : kalloc m with
    | mk f m₁ =>
      obtain ⟨hmoves, hpage, hlength⟩ := ih m₁
      cases f with
      | none =>
        obtain ⟨rfl, hfree⟩ := alloc_eq_none halloc
        simp only [startothers, halloc]
        exact ⟨hmoves, hpage, by omega⟩
      | some f =>
        obtain ⟨hfree, hpage₁⟩ := alloc_eq_some halloc
        simp only [startothers, halloc]
        refine ⟨(Moves.alloc halloc 0).trans (hmoves.cons f), hpage.trans hpage₁, ?_⟩
        rw [hfree, List.length_cons]
        omega

/-- The free memory consists of what `kinit1` and what `kinit2` put on the free list. -/
theorem allPages_eq (img : KernelImage) : ∃ n k,
    pgroundup img.kend + n * 4096 = p2v (4 * 1024 * 1024) ∧
    p2v (4 * 1024 * 1024) + k * 4096 = p2v phystop ∧ k = 56320 ∧
    allPages img = pageRange (pgroundup img.kend) n + pageRange (p2v (4 * 1024 * 1024)) k := by
  obtain ⟨haligned, -, hlow, hhigh⟩ := pgroundup_kend_bounds img
  have hmiddle : p2v (4 * 1024 * 1024) = 0x80400000 := by decide
  have htop : p2v phystop = 0x8E000000 := by decide
  obtain ⟨n, hn⟩ : ∃ n, pgroundup img.kend + n * 4096 = 0x80400000 :=
    ⟨(0x80400000 - pgroundup img.kend) / 4096, by omega⟩
  obtain ⟨k, hk⟩ : ∃ k, k = 56320 := ⟨_, rfl⟩
  refine ⟨n, k, by rw [hmiddle, hn], by rw [hmiddle, htop, hk], hk, ?_⟩
  have hcount : (p2v phystop - pgroundup img.kend) / pgsize = n + k := by
    rw [htop]
    unfold pgsize
    omega
  have hstart : pgroundup img.kend + n * pgsize = p2v (4 * 1024 * 1024) := by
    rw [hmiddle]
    exact hn
  rw [allPages, hcount, pageRange_add, hstart]

/-- `main` before `userinit`: unless the memory below 4 megabytes is too small for the kernel
page table, every page has one owner, and no process has pages. -/
theorem mainInit_spec (img : KernelImage) (ram : ℕ → Fin 1024 → Pte) (others : ℕ) :
    (∃ s, mainInit img ram others = some s ∧ Owned img s ∧ s.table = .zero ∧
      56320 ≤ s.mem.free.length) ∨
    mainInit img ram others = none ∧ p2v (4 * 1024 * 1024) ≤ pgroundup img.kend + 513 * 4096 := by
  obtain ⟨n, k, hcount, hcount', hk, hall⟩ := allPages_eq img
  have hsound := sound_allPages img
  rw [hall] at hsound
  have hsound₁ : Sound img ((([] : List ℕ) : Multiset ℕ) + pageRange (pgroundup img.kend) n) := by
    refine hsound.mono ?_
    simp
  obtain ⟨m₁, hkinit1, hmoves₁, hlength₁⟩ :=
    freerange_spec (m := ⟨[], ram⟩) _ _ _ hcount hsound₁
  have hfree₁ : (m₁.free : Multiset ℕ) = pageRange (pgroundup img.kend) n := by
    simpa using hmoves₁.total
  have hsound₂ : Sound img m₁.free := by
    rw [hfree₁]
    exact hsound.mono (Multiset.le_add_right _ _)
  obtain ⟨d, m₂, hsetup, hmoves₂, -⟩ | ⟨m₂, hsetup, -, hsmall⟩ := setupkvm_spec hsound₂
  · obtain ⟨hmoves₃, hpage₃, -⟩ := startothers_spec others m₂
    set m₃ := (startothers others m₂).2 with hm₃
    set ks := (startothers others m₂).1 with hks
    have hparts : (m₃.free : Multiset ℕ) + ks + dirPages m₂.page d =
        pageRange (pgroundup img.kend) n := by
      rw [hmoves₃.total, add_zero, hmoves₂.total, add_zero, hfree₁]
    have hround : pgroundup (p2v (4 * 1024 * 1024)) = p2v (4 * 1024 * 1024) := by decide
    have hall₃ : (m₃.free : Multiset ℕ) + pageRange (p2v (4 * 1024 * 1024)) k +
        (ks + dirPages m₃.page d) = allPages img := by
      rw [hall, hpage₃, ← hparts]
      abel
    have hsound₃ := sound_allPages img
    rw [← hall₃] at hsound₃
    obtain ⟨m₄, hkinit2, hmoves₄, hlength₄⟩ :=
      freerange_spec (m := m₃) (p2v (4 * 1024 * 1024)) (p2v phystop) k (by rwa [hround]) (by
        rw [hround]
        exact hsound₃.mono (Multiset.le_add_right _ _))
    rw [hround] at hmoves₄
    obtain ⟨hkernel, -⟩ := frame_dirPages hmoves₄ hsound₃.nodup (Multiset.le_add_left _ _)
    have hmany : 56320 ≤ m₄.free.length := by omega
    refine .inl ⟨⟨.zero, m₄, d, ks, []⟩, ?_, ⟨?_, ?_, ?_⟩, rfl, hmany⟩
    · simp [mainInit, hkinit1, hsetup, ← hm₃, ← hks, hkinit2]
    · have hnone : gather (fun i => procPages m₄.page (PTable.zero.proc i)) = 0 := by
        have hzero : ∀ i, procPages m₄.page (PTable.zero.proc i) = 0 := fun _ => rfl
        rw [gather_congr hzero, gather_zero]
      rw [places, inUse]
      dsimp only
      rw [hnone, hkernel, ← hall₃, ← hmoves₄.total]
      simp only [List.map_nil, Multiset.coe_nil, add_zero]
    · intro i hlive
      exact absurd rfl hlive
    · intro i hlive
      exact absurd rfl hlive
  · refine .inr ⟨by simp [mainInit, hkinit1, hsetup], ?_⟩
    have hle : n ≤ 513 := by
      rw [hlength₁] at hsmall
      simpa using hsmall
    omega

/-- `userinit` makes the first process, with one page. -/
theorem userinit_spec {initcodeSize : ℕ} (root : ℕ) (howned : Owned img s) (hzero : s.table = .zero)
    (hfree : 56320 ≤ s.mem.free.length) (hsize : initcodeSize < pgsize) :
    ∃ s' np, userinit img initcodeSize root s = some s' ∧ Changes s s' np ∧
      s.mem.free.length ≤ s'.mem.free.length + 516 ∧
      (s'.table.proc np).state = .runnable ∧ (s'.table.proc np).sz = 4096 ∧
      Spans s'.mem.page (s'.table.proc np).pgdir 4096 := by
  have hunused : ∀ i, (s.table.proc i).state = .unused := fun i => by rw [hzero]; rfl
  obtain ⟨np, hfind⟩ : ∃ np, s.table.allocprocFind = some np := by
    rw [← Option.isSome_iff_exists, Option.isSome_iff_ne_none]
    intro hnone
    have htest := PTable.findSlot_eq_none.mp hnone 0
    simp [hunused] at htest
  have hsound : Sound img s.mem.free := (howned.sound np).mono (Multiset.le_add_right _ _)
  unfold userinit
  simp only [hfind]
  cases halloc : kalloc s.mem with
  | mk kstack m₁ =>
    cases kstack with
    | none =>
      rw [(alloc_eq_none halloc).2] at hfree
      simp at hfree
    | some kstack =>
      have hlength₁ := congrArg List.length (alloc_eq_some halloc).1
      rw [List.length_cons] at hlength₁
      have htake := Moves.alloc halloc 0
      have hsound₁ : Sound img (m₁.free + kstack ::ₘ 0) := by
        rw [htake.total, add_zero]
        exact hsound
      obtain ⟨d, m₂, hsetup, hmoves₂, hkernel⟩ | ⟨m₂, -, -, hsmall⟩ :=
        setupkvm_spec (hsound₁.mono (Multiset.le_add_right _ _))
      · have hcard := congrArg Multiset.card hmoves₂.total
        simp only [Multiset.card_add, Multiset.coe_card, Multiset.card_zero] at hcard
        have hle := hkernel.card_le
        have hsound₂ : Sound img (m₂.free + dirPages m₂.page d) := by
          rw [hmoves₂.total, add_zero]
          exact hsound₁.mono (Multiset.le_add_right _ _)
        obtain ⟨m₃, hinit, hmoves₃, hlength₃, hmapped⟩ := inituvm_spec hsize (by omega)
          (fun b hb => hkernel.not_mapped hb) hsound₂
        have hproc : (s.table.userinit np kstack d root).proc np = _ := rfl
        refine ⟨{ s with table := s.table.userinit np kstack d root, mem := m₃ }, np, ?_,
          changes_of_new (hunused np) (fun j hj => ?_) ?_, by dsimp only; omega, ?_, ?_,
          fun b hb => ?_⟩
        · simp [hsetup, hinit]
        · simp [PTable.userinit, PTable.allocprocInit, PTable.allocprocEmbryo, PTable.modify_proc,
            hj]
        · have hpages : procPages m₃.page ((s.table.userinit np kstack d root).proc np) =
              kstack ::ₘ dirPages m₃.page d := by
            simp [procPages, PTable.userinit, PTable.allocprocInit]
          rw [hpages]
          exact htake.trans ((hmoves₂.trans hmoves₃).cons kstack)
        · simp [PTable.userinit]
        · simp [PTable.userinit]
        · have hround : pgroundup 4096 = 4096 := by decide
          rw [hround]
          simpa [PTable.userinit] using hmapped b hb
      · omega

/-- After boot every page has one owner, most pages are free, and the first process has one
page. -/
theorem boot_spec {ram : ℕ → Fin 1024 → Pte} {others initcodeSize root : ℕ}
    (hboot : boot img ram others initcodeSize root = some s) :
    Owned img s ∧ 55804 ≤ s.mem.free.length ∧
      ∃ np, (s.table.proc np).state = .runnable ∧ (s.table.proc np).sz = 4096 ∧
        Spans s.mem.page (s.table.proc np).pgdir 4096 ∧
        ∀ j, j ≠ np → (s.table.proc j).state = .unused := by
  obtain ⟨s₀, hinit, huser⟩ := Option.bind_eq_some_iff.mp hboot
  obtain ⟨s₁, hinit', howned, hzero, hfree⟩ | ⟨hinit', -⟩ := mainInit_spec img ram others
  · obtain rfl : s₁ = s₀ := by simpa [hinit'] using hinit
    have hsize : initcodeSize < pgsize := by
      by_contra hle
      unfold userinit inituvm at huser
      simp only [ge_iff_le, not_lt.mp hle, if_true, Option.map_none] at huser
      split at huser
      · cases huser
      · split at huser
        · cases huser
        · obtain ⟨⟨d, m⟩, -, huser⟩ := Option.bind_eq_some_iff.mp huser
          cases d <;> cases huser
    obtain ⟨s₂, np, huser', hchanges, hlength, hstate, hsz, hspans⟩ :=
      userinit_spec root howned hzero hfree hsize
    obtain rfl : s₂ = s := by simpa [huser'] using huser
    have hloaded : SpaceChange s₁ .tick s₂ np := by
      refine .loaded ?_ ?_
      · rw [hsz]
        decide
      · rw [hsz]
        exact hspans
    refine ⟨howned.change hchanges hloaded, by omega, np, hstate, hsz, hspans, fun j hj => ?_⟩
    refine (hchanges.other j hj).unused.mpr ?_
    rw [hzero]
    rfl
  · simp [hinit'] at hinit

/-- The machine boots if there is room for the kernel page table below 4 megabytes. -/
theorem boot_eq_some (ram : ℕ → Fin 1024 → Pte) (others root : ℕ) {initcodeSize : ℕ}
    (hroom : pgroundup img.kend + 513 * 4096 < p2v (4 * 1024 * 1024))
    (hsize : initcodeSize < pgsize) :
    ∃ s, boot img ram others initcodeSize root = some s := by
  obtain ⟨s₀, hinit, howned, hzero, hfree⟩ | ⟨-, hfull⟩ := mainInit_spec img ram others
  · obtain ⟨s, np, huser, -⟩ := userinit_spec root howned hzero hfree hsize
    exact ⟨s, by rw [boot, hinit, Option.bind_some, huser]⟩
  · omega

/-- In every state that a run without such an `exec` reaches, every page has one owner. -/
theorem owned_run {ram : ℕ → Fin 1024 → Pte} {others initcodeSize root : ℕ} {s₀ : State}
    {guard : List Action → State → Action → Prop} {trace : List Action}
    (hboot : boot img ram others initcodeSize root = some s₀)
    (hguard : ∀ trace s a, guard trace s a → FollowsNoNull img s a)
    (hrun : Run (step img) guard s₀ trace s) : Owned img s := by
  refine hrun.invariant (I := fun _ s => Owned img s) (boot_spec hboot).1 ?_
  intro trace s a s' howned hallowed hstep
  exact howned.step (hguard trace s a hallowed) hstep

/-- The page that a mapped user address is in. -/
def userPage (w : ℕ → Fin 1024 → Pte) (d va : ℕ) : ℕ :=
  p2v (w (pageTable w d (pdx va)) (ptx va)).addr

/-- In one address space, different pages of addresses are different physical pages. -/
theorem userPage_inj {w : ℕ → Fin 1024 → Pte} {d a b : ℕ} (hnodup : (dirPages w d).Nodup)
    (ha : a < kernbase) (hb : b < kernbase) (hmapped : Mapped w d a) (hmapped' : Mapped w d b)
    (heq : userPage w d a = userPage w d b) : a / 4096 = b / 4096 := by
  unfold kernbase at ha hb
  have hslot : ∀ c < kernbase, Mapped w d c →
      userPage w d c ∈ slotPages w d (pdx c) ∧ (pdx c).val < 512 := by
    intro c hc hcm
    have hlt : (pdx c).val < 512 := (pdx_lt_iff (by unfold kernbase at hc; omega)).mpr hc
    refine ⟨?_, hlt⟩
    rw [slotPages, if_pos hcm.1, if_pos hlt]
    exact Multiset.mem_cons_of_mem (mem_slotPages_of_mapped hc hcm).1
  obtain ⟨hmem, hlt⟩ := hslot a (by unfold kernbase; omega) hmapped
  obtain ⟨hmem', -⟩ := hslot b (by unfold kernbase; omega) hmapped'
  rw [← heq] at hmem'
  have hpdx : pdx a = pdx b := eq_of_mem_of_mem (nodup_dirPages.mp hnodup).2 hmem hmem'
  have htable : (userPages (w (pageTable w d (pdx a)))).Nodup := by
    have h : (slotPages w d (pdx a)).Nodup :=
      Multiset.nodup_of_le (slotPages_le_dirPages (pdx a)) hnodup
    rw [slotPages, if_pos hmapped.1, if_pos hlt] at h
    exact (Multiset.nodup_cons.mp h).2
  have hentry : userPage w d a ∈ (w (pageTable w d (pdx a)) (ptx a)).pages := by
    simp [userPage, Pte.pages, hmapped.2]
  have hentry' : userPage w d a ∈ (w (pageTable w d (pdx a)) (ptx b)).pages := by
    rw [heq, hpdx]
    simp [userPage, Pte.pages, hmapped'.2]
  have hptx : ptx a = ptx b := eq_of_mem_of_mem htable hentry hentry'
  exact (pdx_ptx_eq_iff (by omega) (by omega)).mp ⟨hpdx, hptx⟩

/-- Physical pages have one owner. -/
structure OneOwner (img : KernelImage) (s : State) : Prop where
  /-- The pages from `PGROUNDUP(end)` to `PHYSTOP` are in one place each, other pages in none. -/
  count_eq : ∀ f, (places s).count f =
    if f % pgsize = 0 ∧ pgroundup img.kend ≤ f ∧ f < p2v phystop then 1 else 0
  /-- `kalloc` returns no page that is in use. -/
  kalloc_fresh : ∀ f m, kalloc s.mem = (some f, m) → f ∉ inUse s
  /-- No user page is mapped for two processes, or twice for one. -/
  mapped_once : ∀ i j, (s.table.proc i).state ≠ .unused → (s.table.proc j).state ≠ .unused →
    ∀ a < kernbase, ∀ b < kernbase,
      Mapped s.mem.page (s.table.proc i).pgdir a → Mapped s.mem.page (s.table.proc j).pgdir b →
      userPage s.mem.page (s.table.proc i).pgdir a =
        userPage s.mem.page (s.table.proc j).pgdir b →
      i = j ∧ a / pgsize = b / pgsize

/-- The pages of a process are among the pages in use. -/
theorem Owned.mem_of_mapped (hlive : (s.table.proc i).state ≠ .unused) {a : ℕ} (ha : a < kernbase)
    (hmapped : Mapped s.mem.page (s.table.proc i).pgdir a) :
    userPage s.mem.page (s.table.proc i).pgdir a ∈
      procPages s.mem.page (s.table.proc i) := by
  rw [procPages_of_live hlive]
  obtain ⟨hmem, hle⟩ := mem_slotPages_of_mapped ha hmapped
  exact Multiset.mem_cons_of_mem (Multiset.mem_of_le hle hmem)

/-- With one place for each page, pages have one owner. -/
theorem Owned.oneOwner (howned : Owned img s) : OneOwner img s := by
  have hnodup := howned.nodup
  refine ⟨fun f => ?_, fun f m halloc => ?_, fun i j hi hj a ha b hb hmapped hmapped' heq => ?_⟩
  · rw [Multiset.count_eq_of_nodup hnodup, howned.places_eq]
    exact if_congr mem_allPages rfl rfl
  · have hmem : f ∈ (s.mem.free : Multiset ℕ) := by simp [(alloc_eq_some halloc).1]
    exact Multiset.disjoint_left.mp (Multiset.nodup_add.mp hnodup).2.2 hmem
  · have hmem := Owned.mem_of_mapped hi ha hmapped
    have hmem' := Owned.mem_of_mapped hj hb hmapped'
    rw [← heq] at hmem'
    have hprocs : (gather fun i => procPages s.mem.page (s.table.proc i)).Nodup :=
      (Multiset.nodup_add.mp (Multiset.nodup_add.mp hnodup).2.1).2.1
    obtain rfl : i = j := eq_of_mem_of_mem hprocs hmem hmem'
    have hspace := (howned.sound_dirPages hi).nodup
    exact ⟨rfl, userPage_inj (Multiset.nodup_add.mp hspace).2.1 ha hb hmapped hmapped' heq⟩

/-- A kernel with 32 kilobytes of code and some 50 kilobytes of data. -/
def smallKernel : KernelImage where
  data := 0x80108000
  kend := 0x801154A8
  data_aligned := by decide
  kernlink_lt_data := by decide
  data_le_end := by decide
  end_le := by decide

end Xv6.ProcessMemory
