import Xv6.PageOwners

/-!
# The size of a process and its page table

`sz` is a plain number that the system calls trust. As long as no process gives up all its memory
with `sbrk`, exactly the pages below `sz` are mapped; `copyuvm` then never panics, and the checks
of `fetchint`, `fetchstr` and `argptr` accept only mapped addresses. `growproc` to size 0 takes
the result 0 of `deallocuvm` for an error, and leaves `sz` at its old value with no page mapped.
An `exec` that follows a null pointer may write to page tables; runs with one are left out.
-/

namespace Xv6.ProcessMemory

open PageStore GuardedRun

/-! ## Fetching arguments -/

/-- `fetchint`: the word at a user address. -/
def fetchint (p : Proc) (word : ℕ → UInt32) (addr : ℕ) : Option UInt32 :=
  if addr ≥ p.sz ∨ (addr + 4) % 2 ^ 32 > p.sz then none else some (word addr)

/-- The loop of `fetchstr`, from the address `s` on: where the string ends. -/
def fetchstrFrom (byte : ℕ → UInt8) (ep s : ℕ) : Option ℕ :=
  if _h : s < ep then
    if byte s = 0 then some s else fetchstrFrom byte ep (s + 1)
  else none
termination_by ep - s

/-- `fetchstr`: the length of the string at a user address. -/
def fetchstr (p : Proc) (byte : ℕ → UInt8) (addr : ℕ) : Option ℕ :=
  if addr ≥ p.sz then none else (fetchstrFrom byte p.sz addr).map (· - addr)

/-- `argint`, with the user stack pointer of the trap frame. -/
def argint (p : Proc) (word : ℕ → UInt32) (esp n : ℕ) : Option UInt32 :=
  fetchint p word ((esp + 4 + 4 * n) % 2 ^ 32)

/-- `argptr`: the address of a block of `size` bytes. -/
def argptr (p : Proc) (word : ℕ → UInt32) (esp n : ℕ) (size : ℤ) : Option ℕ :=
  (argint p word esp n).bind fun i =>
    if size < 0 ∨ i.toNat ≥ p.sz ∨ wrapUint (i.toNat + size) > p.sz then none else some i.toNat

/-! ## The invariant -/

variable {img : KernelImage} {s s' : State}

/-- Exactly the pages below its size are mapped for every process. -/
def Exact (s : State) : Prop :=
  ∀ i, (s.table.proc i).state ≠ .unused →
    Spans s.mem.page (s.table.proc i).pgdir (s.table.proc i).sz

/-- The step is not a `growproc` that gives up the whole memory of the caller, nor an `exec` that
follows a null pointer. -/
def KeepsMemory (img : KernelImage) (s : State) (a : Action) : Prop :=
  FollowsNoNull img s a ∧
    ∀ cur n, a = .growproc cur n → n < 0 → wrapUint ((s.table.proc cur).sz + n) ≠ 0

/-- Growing an address space of size `x` up to `y`. -/
theorem lt_pgroundup_max_iff {x y b : ℕ} (hx : x < kernbase) (hy : y < kernbase) :
    (b < pgroundup x ∨ pgroundup x ≤ b ∧ b / 4096 * 4096 < y) ↔ b < pgroundup (max x y) := by
  unfold kernbase at hx hy
  unfold pgroundup pgsize
  rcases le_total x y with hxy | hxy
  · rw [max_eq_right hxy]
    omega
  · rw [max_eq_left hxy]
    omega

/-- Shrinking an address space of size `x` to `y`. -/
theorem lt_pgroundup_iff {x y b : ℕ} (hx : x < kernbase) (hy : y < x) :
    (b < pgroundup x ∧ ¬ (pgroundup y ≤ b ∧ b / 4096 * 4096 < x)) ↔ b < pgroundup y := by
  unfold kernbase at hx
  unfold pgroundup pgsize
  omega

theorem lt_pgroundup_self_iff {x b : ℕ} (hx : x < kernbase) :
    b / 4096 * 4096 < x ↔ b < pgroundup x := by
  unfold kernbase at hx
  unfold pgroundup pgsize
  omega

/-- Every step that does not give up the whole memory of its caller keeps sizes and page tables
in agreement. -/
theorem Exact.step {a : Action} (hexact : Exact s) (howned : Owned img s)
    (hkeeps : KeepsMemory img s a) (hstep : step img s a = some s') : Exact s' := by
  have hsmall : ∀ b < kernbase, b < 2 ^ 32 := fun b hb => by
    unfold kernbase at hb
    omega
  rcases step_cases howned hkeeps.1 hstep with ⟨i, hchanges, hspace⟩ | hsame
  · obtain ⟨-, hmapped⟩ := hchanges.frame howned.nodup
    intro j hlive
    by_cases hj : j = i
    · subst hj
      cases hspace with
      | gone hgone => exact absurd hgone hlive
      | copied k hk hsz hcopy =>
        have hlt := howned.sz_lt k hk
        rw [← hsz] at hlt
        exact fun b hb => (hcopy b hb).trans (lt_pgroundup_self_iff hlt)
      | loaded _ hspans => exact hspans
      | grown newsz hold hnew hsz hgrown =>
        intro b hb
        rw [hgrown b (hsmall b hb), hexact j hold b hb, hsz]
        exact lt_pgroundup_max_iff (howned.sz_lt j hold) hnew
      | kept hold hsz hkept =>
        intro b hb
        rw [hkept b (hsmall b hb), hsz]
        exact hexact j hold b hb
      | shrunk hold hsz hshrunk =>
        intro b hb
        rw [hshrunk b (hsmall b hb), hexact j hold b hb]
        exact lt_pgroundup_iff (howned.sz_lt j hold) hsz
      | emptied n ha _ hneg hzero _ _ =>
        subst ha
        exact absurd hzero (hkeeps.2 j n rfl hneg)
    · have hold : (s.table.proc j).state ≠ .unused := fun h =>
        hlive ((hchanges.other j hj).unused.mpr h)
      intro b hb
      rw [hmapped j hj hold b, (hchanges.other j hj).sz]
      exact hexact j hold b hb
  · intro j hlive
    have hold : (s.table.proc j).state ≠ .unused := fun h =>
      hlive ((hsame.space j).unused.mpr h)
    intro b hb
    rw [(hsame.space j).pgdir, (hsame.space j).sz, hsame.mapped_iff j hold b]
    exact hexact j hold b hb

/-- After boot sizes and page tables agree. -/
theorem exact_boot {ram : ℕ → Fin 1024 → Pte} {others initcodeSize root : ℕ}
    (hboot : boot img ram others initcodeSize root = some s) : Exact s := by
  obtain ⟨-, -, np, -, hsz, hspans, hunused⟩ := boot_spec hboot
  intro j hlive
  by_cases hj : j = np
  · rw [hj, hsz]
    exact hspans
  · exact absurd (hunused j hj) hlive

/-- In every state that a run of such steps reaches, sizes and page tables agree. -/
theorem exact_run {ram : ℕ → Fin 1024 → Pte} {others initcodeSize root : ℕ} {s₀ : State}
    {trace : List Action} (hboot : boot img ram others initcodeSize root = some s₀)
    (hrun : Run (step img) (fun _ => KeepsMemory img) s₀ trace s) : Exact s ∧ Owned img s := by
  refine hrun.invariant (I := fun _ s => Exact s ∧ Owned img s)
    ⟨exact_boot hboot, (boot_spec hboot).1⟩ ?_
  intro _ s a s' hinv hkeeps hstep
  exact ⟨hinv.1.step hinv.2 hkeeps hstep, hinv.2.step hkeeps.1 hstep⟩

/-! ## What follows for the kernel -/

/-- `fork` does not panic: `copyuvm` finds every page below the size. -/
theorem fork_ne_none (hexact : Exact s) (howned : Owned img s) {cur : Slot}
    (hlive : (s.table.proc cur).state ≠ .unused) : fork img s cur ≠ none := by
  have hsz := howned.sz_lt cur hlive
  have hsound := howned.sound_dirPages hlive
  unfold fork
  cases hfind : s.table.allocprocFind with
  | none => simp
  | some np =>
    have hne : cur ≠ np := by
      rintro rfl
      exact hlive (unused_of_find hfind)
    dsimp only
    cases halloc : kalloc s.mem with
    | mk kstack m₁ =>
      cases kstack with
      | none => simp
      | some kstack =>
        have hpage := (alloc_eq_some halloc).2
        obtain ⟨hkstack, hsound₁⟩ := sound_kalloc hsound halloc
        rw [← hpage] at hsound₁
        have hcur : ((s.table.allocprocEmbryo np).allocprocInit np kstack).proc cur =
            s.table.proc cur := by
          simp [PTable.allocprocInit, PTable.allocprocEmbryo, PTable.modify_proc, hne]
        dsimp only
        rw [hcur]
        obtain ⟨d, m₂, hcopy, -⟩ | ⟨m₂, hcopy, -⟩ | ⟨-, b, hb, hnot⟩ := copyuvm_spec hsz hsound₁
        · simp [hcopy]
        · simp [hcopy, kfree_eq hkstack]
        · refine absurd ?_ hnot
          rw [hpage]
          unfold kernbase at hsz
          refine (hexact cur hlive b (by unfold kernbase; omega)).mpr ?_
          unfold pgroundup pgsize
          omega

/-- The process is neither unused, nor being created, nor a zombie. -/
def Live (p : Proc) : Prop := p.state ≠ .unused ∧ p.state ≠ .embryo ∧ p.state ≠ .zombie

/-- Sizes and page tables agree, and what the kernel derives from sizes is right. -/
structure SizesAgree (img : KernelImage) (s : State) : Prop where
  /-- Sizes end below the kernel. -/
  sz_lt : ∀ i, Live (s.table.proc i) → (s.table.proc i).sz < kernbase
  /-- Of the user addresses, exactly those below `PGROUNDUP(sz)` are mapped. -/
  spans : ∀ i, Live (s.table.proc i) → ∀ b < kernbase,
    Mapped s.mem.page (s.table.proc i).pgdir b ↔ b < pgroundup (s.table.proc i).sz
  /-- `fork`, which calls `copyuvm`, does not panic. -/
  fork_returns : ∀ i, Live (s.table.proc i) → fork img s i ≠ none
  /-- The word that `fetchint` returns is mapped. -/
  fetchint_mapped : ∀ i, Live (s.table.proc i) → ∀ word addr v,
    fetchint (s.table.proc i) word addr = some v →
      ∀ k < 4, Mapped s.mem.page (s.table.proc i).pgdir (addr + k)
  /-- The string that `fetchstr` returns is mapped, up to its end. -/
  fetchstr_mapped : ∀ i, Live (s.table.proc i) → ∀ byte addr len,
    fetchstr (s.table.proc i) byte addr = some len →
      ∀ k ≤ len, Mapped s.mem.page (s.table.proc i).pgdir (addr + k)
  /-- The block that `argptr` returns is mapped, and so is its address if it is empty. -/
  argptr_mapped : ∀ i, Live (s.table.proc i) → ∀ word esp n size addr, size ≤ intMax →
    argptr (s.table.proc i) word esp n size = some addr →
      ∀ k : ℕ, (k : ℤ) < size ∨ k = 0 → Mapped s.mem.page (s.table.proc i).pgdir (addr + k)

/-- The string that the loop of `fetchstr` finds ends below the size. -/
theorem fetchstrFrom_lt {byte : ℕ → UInt8} {ep a e : ℕ}
    (hfetch : fetchstrFrom byte ep a = some e) : a ≤ e ∧ e < ep := by
  induction hn : ep - a using Nat.strong_induction_on generalizing a with
  | _ n ih =>
    subst hn
    rw [fetchstrFrom] at hfetch
    split_ifs at hfetch with hlt hzero
    · obtain rfl : a = e := by simpa using hfetch
      exact ⟨le_rfl, hlt⟩
    · have hnext := ih (ep - (a + 1)) (by omega) hfetch rfl
      omega

/-- The checks of the system calls accept only mapped addresses, and `fork` does not panic. -/
theorem Exact.sizesAgree (hexact : Exact s) (howned : Owned img s) : SizesAgree img s := by
  have hbelow : ∀ i, Live (s.table.proc i) → ∀ b < (s.table.proc i).sz,
      Mapped s.mem.page (s.table.proc i).pgdir b := by
    intro i hlive b hb
    have hsz := howned.sz_lt i hlive.1
    refine (hexact i hlive.1 b (by omega)).mpr ?_
    rw [← lt_pgroundup_self_iff hsz]
    omega
  refine ⟨fun i hlive => howned.sz_lt i hlive.1, fun i hlive => hexact i hlive.1,
    fun i hlive => fork_ne_none hexact howned hlive.1, fun i hlive word addr v hfetch k hk => ?_,
    fun i hlive byte addr len hfetch k hk => ?_,
    fun i hlive word esp n size addr hsize harg k hk => ?_⟩
  · have hsz := howned.sz_lt i hlive.1
    unfold fetchint at hfetch
    split_ifs at hfetch with hout
    unfold kernbase at hsz
    exact hbelow i hlive _ (by omega)
  · unfold fetchstr at hfetch
    split_ifs at hfetch with hout
    obtain ⟨e, hloop, rfl⟩ := Option.map_eq_some_iff.mp hfetch
    have hend := fetchstrFrom_lt hloop
    exact hbelow i hlive _ (by omega)
  · have hsz := howned.sz_lt i hlive.1
    obtain ⟨v, -, hcheck⟩ := Option.bind_eq_some_iff.mp harg
    split_ifs at hcheck with hout
    obtain rfl : v.toNat = addr := by simpa using hcheck
    unfold kernbase at hsz
    unfold intMax at hsize
    unfold wrapUint at hout
    exact hbelow i hlive _ (by omega)

/-- As long as no process gives up its whole memory by a `growproc` to size 0 and no `exec` follows
a null pointer, the size of every process agrees with its page table in every state that a run of
`fork`, `exec`, `growproc`, `exit` and `wait` reaches. -/
theorem process_size {ram : ℕ → Fin 1024 → Pte} {others initcodeSize root : ℕ} {s₀ : State}
    {trace : List Action} (hboot : boot img ram others initcodeSize root = some s₀)
    (hrun : Run (step img) (fun _ => KeepsMemory img) s₀ trace s) : SizesAgree img s := by
  obtain ⟨hexact, howned⟩ := exact_run hboot hrun
  exact hexact.sizesAgree howned

/-- The first process can be dispatched after boot; it is the only one. -/
theorem boot_dispatch {ram : ℕ → Fin 1024 → Pte} {others initcodeSize root : ℕ} {s₀ : State}
    (hboot : boot img ram others initcodeSize root = some s₀) :
    ∃ np s, step img s₀ (.dispatch np) = some s ∧ (s.table.proc np).state = .running ∧
      (s.table.proc np).sz = 4096 ∧ 55804 ≤ s.mem.free.length ∧
      ∀ j, j ≠ np → (s.table.proc j).state = .unused := by
  obtain ⟨-, hfree, np, hstate, hsz, -, hunused⟩ := boot_spec hboot
  refine ⟨np, { s₀ with table := s₀.table.dispatch np }, step_eq_some.mpr ⟨hstate, rfl⟩, ?_, ?_,
    hfree, fun j hj => ?_⟩
  · simp [PTable.dispatch]
  · simpa [PTable.dispatch] using hsz
  · simpa [PTable.dispatch, PTable.modify_proc_of_ne hj] using hunused j hj

/-- The first process forks. -/
theorem process_size_fork : ∃ s₀ s trace,
    boot smallKernel (fun _ _ => .zero) 1 44 2 = some s₀ ∧
      Run (step smallKernel) (fun _ => KeepsMemory smallKernel) s₀ trace s ∧ trace.length = 2 ∧
      SizesAgree smallKernel s := by
  obtain ⟨s₀, hboot⟩ := boot_eq_some (fun _ _ => .zero) 1 2
    (show pgroundup smallKernel.kend + 513 * 4096 < p2v (4 * 1024 * 1024) by decide)
    (show 44 < pgsize by decide)
  obtain ⟨np, s₁, hdispatch, hrunning, -⟩ := boot_dispatch hboot
  have hrun₁ : Run (step smallKernel) (fun _ => KeepsMemory smallKernel) s₀ [.dispatch np] s₁ :=
    .step .start ⟨trivial, fun _ _ h => by cases h⟩ hdispatch
  obtain ⟨hexact, howned⟩ := exact_run hboot hrun₁
  obtain ⟨⟨r, s₂⟩, hfork⟩ := Option.ne_none_iff_exists'.mp
    (fork_ne_none hexact howned (show (s₁.table.proc np).state ≠ .unused by simp [hrunning]))
  have hstep : step smallKernel s₁ (.fork np) = some s₂ :=
    step_eq_some.mpr ⟨hrunning, by simp [effect, hfork]⟩
  have hrun₂ : Run (step smallKernel) (fun _ => KeepsMemory smallKernel) s₀
      [.fork np, .dispatch np] s₂ :=
    .step hrun₁ ⟨trivial, fun _ _ h => by cases h⟩ hstep
  exact ⟨s₀, s₂, _, hboot, hrun₂, rfl, process_size hboot hrun₂⟩

/-- After `sbrk(-sz)` the first process still has its old size, and no page: the sizes do not
agree with the page tables in every state of every run. -/
theorem sbrk_leaves_size : ¬ ∀ (img : KernelImage) (ram : ℕ → Fin 1024 → Pte)
    (others initcodeSize root : ℕ) (s₀ s : State) (trace : List Action),
    boot img ram others initcodeSize root = some s₀ → Run (step img) free s₀ trace s →
      SizesAgree img s := by
  intro hall
  obtain ⟨s₀, hboot⟩ := boot_eq_some (fun _ _ => .zero) 1 2
    (show pgroundup smallKernel.kend + 513 * 4096 < p2v (4 * 1024 * 1024) by decide)
    (show 44 < pgsize by decide)
  obtain ⟨np, s₁, hdispatch, hrunning, hsz, -⟩ := boot_dispatch hboot
  have hrun₁ : Run (step smallKernel) free s₀ [.dispatch np] s₁ := .step .start trivial hdispatch
  have howned := (boot_spec hboot).1.step (a := .dispatch np) trivial hdispatch
  have hlive : (s₁.table.proc np).state ≠ .unused := by simp [hrunning]
  have hzero : wrapUint ((s₁.table.proc np).sz + -4096) = 0 := by rw [hsz]; decide
  obtain ⟨m, hdealloc, hshrunk⟩ := deallocuvm_spec (s₁.table.proc np).sz 0
    (howned.sz_lt np hlive).le (by omega) (howned.sound_dirPages hlive)
  have hgrow : growproc smallKernel s₁ np (-4096) = some (-1, { s₁ with mem := m }) := by
    simp [growproc, hzero, hdealloc]
  have hstep : step smallKernel s₁ (.growproc np (-4096)) = some { s₁ with mem := m } :=
    step_eq_some.mpr ⟨⟨hrunning, by decide⟩, by simp [effect, hgrow]⟩
  have hagree := hall _ _ _ _ _ _ _ _ hboot (hrun₁.step trivial hstep)
  have hlive' : Live (s₁.table.proc np) := by simp [Live, hrunning]
  have hmapped : Mapped m.page (s₁.table.proc np).pgdir 0 := by
    refine (hagree.spans np hlive' 0 (by decide)).mpr ?_
    rw [hsz]
    decide
  refine ((hshrunk.mapped_iff 0 (by decide)).mp hmapped).2 ⟨by decide, ?_⟩
  rw [hsz]
  decide

end Xv6.ProcessMemory
