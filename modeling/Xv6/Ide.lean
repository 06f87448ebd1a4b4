import Xv6.BufferCache
import Xv6.Lib.GuardedRun

/-!
# The disk driver

`ide.c`: processes that call `iderw`, each with a buffer that it has locked; the interrupt
handler; and disks that perform the command started last and may report an error for it. A
critical section of `idelock` is one step, and anything may happen between two steps. A block is
one sector.

A request has a number, its place in the order in which requests have been queued. The state
records which buffers have been queued, which requests have been completed, and what the buffer
and the block of the disk were when the buffer was marked, and which calls have returned.
-/

namespace Xv6.Ide

open GuardedRun BufferCache

/-- `struct buf`, as far as the driver uses it; `flags` is a field for each bit. -/
structure Buf (α : Type*) where
  /-- The device. -/
  dev : ℕ
  /-- The block. -/
  blockno : ℕ
  /-- `B_VALID`. -/
  valid : Bool
  /-- `B_DIRTY`. -/
  dirty : Bool
  /-- The contents. -/
  data : α

/-- `(b->flags & (B_VALID|B_DIRTY)) == B_VALID`. -/
def Buf.synced {α : Type*} (b : Buf α) : Bool := b.valid && !b.dirty

/-- What the driver writes to the ports of the disks. -/
structure Command (α : Type*) where
  /-- The disk: bit 4 of port 0x1f6. -/
  drive : ℕ
  /-- The sector: ports 0x1f3, 0x1f4 and 0x1f5, and the low bits of port 0x1f6. -/
  sector : ℕ
  /-- The data that follow `IDE_CMD_WRITE`; none for `IDE_CMD_READ`. -/
  data : Option α

/-- The bits of a sector number that the four ports take. -/
def lba (sector : ℕ) : ℕ :=
  sector % 2 ^ 8 + sector / 2 ^ 8 % 2 ^ 8 * 2 ^ 8 + sector / 2 ^ 16 % 2 ^ 8 * 2 ^ 16 +
    sector / 2 ^ 24 % 2 ^ 4 * 2 ^ 24

/-- The command that `idestart` gives. -/
def Buf.command {α : Type*} (b : Buf α) : Command α :=
  { drive := b.dev % 2, sector := lba b.blockno, data := if b.dirty then some b.data else none }

/-- Where a process is. -/
inductive Pc (B : Type*)
  /-- Not in `iderw`. -/
  | idle
  /-- In `iderw`, before `acquire`. -/
  | entering (b : B)
  /-- In `sleep`, with the number of its request. -/
  | asleep (b : B) (n : ℕ)
  /-- Runnable again, before the next test of its `while`. -/
  | woken (b : B) (n : ℕ)
  deriving DecidableEq

/-- The request that a process waits for. -/
def Pc.request {B : Type*} : Pc B → Option (B × ℕ)
  | .asleep b n | .woken b n => some (b, n)
  | _ => none

/-- A request that has been completed. -/
structure Completion (B α : Type*) where
  /-- The buffer. -/
  buf : B
  /-- Whether the disk has reported an error. -/
  err : Bool
  /-- The contents of the buffer when it was marked. -/
  data : α
  /-- The contents of the block of the disk then. -/
  block : α

/-- The buffers, the driver, the processes and the disks. -/
structure State (P B α : Type*) where
  /-- The buffers. -/
  buf : B → Buf α
  /-- The holders of their sleep locks. -/
  lock : B → Option P
  /-- `idequeue`. -/
  idequeue : List B
  /-- Where the processes are. -/
  pc : P → Pc B
  /-- The blocks of the two disks. -/
  disk : ℕ → ℕ → α
  /-- The command that has been started and not performed yet. -/
  command : Option (Command α)
  /-- Whether the disk has reported an error for the last command. -/
  err : Bool
  /-- What can be read from port 0x1f0. -/
  port : α
  /-- An interrupt is pending. -/
  irq : Bool
  /-- The buffers that have been queued. -/
  queued : List B
  /-- The requests that have been completed. -/
  completed : List (Completion B α)
  /-- The buffers and the numbers of the requests whose `iderw` has returned. -/
  returned : List (B × ℕ)

variable {P B α : Type*} [DecidableEq P] [DecidableEq B]

namespace State

/-- Change one buffer. -/
def setBuf (s : State P B α) (b : B) (x : Buf α) : State P B α :=
  { s with buf := Function.update s.buf b x }

/-- Move one process. -/
def goto (s : State P B α) (p : P) (pc : Pc B) : State P B α :=
  { s with pc := Function.update s.pc p pc }

/-- The block of the disk that a buffer is for. -/
def block (s : State P B α) (b : B) : α := s.disk ((s.buf b).dev % 2) (s.buf b).blockno

/-- `wakeup(b)`. -/
def wakeup (s : State P B α) (b : B) : State P B α :=
  { s with pc := fun p =>
      match s.pc p with
      | .asleep c n => if c = b then .woken c n else .asleep c n
      | pc => pc }

variable {s : State P B α} {p q : P} {b c : B} {x : Buf α} {pc : Pc B} {n : ℕ}

omit [DecidableEq P] in
@[simp] theorem setBuf_buf_self : (s.setBuf b x).buf b = x := Function.update_self _ _ _

omit [DecidableEq P] in
theorem setBuf_buf_of_ne (hne : c ≠ b) : (s.setBuf b x).buf c = s.buf c :=
  Function.update_of_ne hne _ _

omit [DecidableEq B] in
@[simp] theorem goto_pc_self : (s.goto p pc).pc p = pc := Function.update_self _ _ _

omit [DecidableEq B] in
theorem goto_pc_of_ne (hne : q ≠ p) : (s.goto p pc).pc q = s.pc q :=
  Function.update_of_ne hne _ _

omit [DecidableEq P] in
@[simp] theorem wakeup_request : ((s.wakeup b).pc p).request = (s.pc p).request := by
  unfold wakeup
  dsimp only
  split
  next hpc =>
    rw [hpc]
    split <;> rfl
  next => rfl

omit [DecidableEq P] in
@[simp] theorem wakeup_pc_eq_entering : (s.wakeup b).pc p = .entering c ↔ s.pc p = .entering c := by
  unfold wakeup
  dsimp only
  split
  next hpc =>
    rw [hpc]
    split <;> simp
  next => rfl

omit [DecidableEq P] in
@[simp] theorem wakeup_pc_eq_asleep :
    (s.wakeup b).pc p = .asleep c n ↔ s.pc p = .asleep c n ∧ c ≠ b := by
  unfold wakeup
  dsimp only
  split
  next d m hpc =>
    rw [hpc]
    by_cases heq : d = b
    · simp only [if_pos heq, reduceCtorEq, false_iff, not_and, Pc.asleep.injEq]
      rintro ⟨rfl, -⟩ hne
      exact hne heq
    · simp only [if_neg heq, Pc.asleep.injEq]
      constructor
      · rintro ⟨rfl, rfl⟩
        exact ⟨⟨rfl, rfl⟩, heq⟩
      · exact And.left
  next hpc =>
    constructor
    · exact fun hasleep => absurd hasleep (hpc c n)
    · exact fun hasleep => absurd hasleep.1 (hpc c n)

end State

/-! ## The driver -/

/-- `idestart`; `none` for the panic, and while `idewait` waits. -/
def idestart (s : State P B α) (b : B) : Option (State P B α) :=
  if fssize ≤ (s.buf b).blockno then none
  else if s.command.isSome then none
  else some { s with command := some (s.buf b).command }

/-- The test of the `while` of `iderw`. -/
def iderwWait (s : State P B α) (p : P) (b : B) (n : ℕ) : State P B α :=
  if (s.buf b).synced then { s.goto p .idle with returned := (b, n) :: s.returned }
  else s.goto p (.asleep b n)

/-- `iderw`, from `acquire` to the first test of its `while`. -/
def iderw (s : State P B α) (p : P) (b : B) : Option (State P B α) :=
  let n := s.queued.length
  let s := { s with idequeue := s.idequeue ++ [b], queued := s.queued ++ [b] }
  (if s.idequeue.head? = some b then idestart s b else some s).map fun s => iderwWait s p b n

/-- `ideintr` reads the data if needed; `none` while `idewait` waits. -/
def ideintrRead (s : State P B α) (b : B) : Option (State P B α) :=
  if (s.buf b).dirty then some s
  else if s.command.isSome then none
  else if s.err then some s
  else some (s.setBuf b { s.buf b with data := s.port })

/-- `ideintr` marks the buffer and wakes the process that waits for it. -/
def ideintrMark (s : State P B α) (b : B) : State P B α :=
  { (s.setBuf b { s.buf b with valid := true, dirty := false }).wakeup b with
    completed := s.completed ++ [⟨b, s.err, (s.buf b).data, s.block b⟩] }

/-- `ideintr`. -/
def ideintr (s : State P B α) : Option (State P B α) :=
  let s := { s with irq := false }
  match s.idequeue with
  | [] => some s
  | b :: rest =>
    (ideintrRead { s with idequeue := rest } b).bind fun s =>
      let s := ideintrMark s b
      match rest with
      | [] => some s
      | c :: _ => idestart s c

/-- A disk performs the command, or reports an error. -/
def perform (s : State P B α) (fails : Bool) : Option (State P B α) :=
  s.command.map fun c =>
    let s := { s with command := none, irq := true, err := fails }
    if fails then s
    else
      match c.data with
      | none => { s with port := s.disk c.drive c.sector }
      | some x =>
        let blocks := Function.update (s.disk c.drive) c.sector x
        { s with disk := Function.update s.disk c.drive blocks }

/-! ## Steps -/

/-- A step. -/
inductive Action (P B α : Type*)
  /-- `acquiresleep`. -/
  | lock (p : P) (b : B)
  /-- `releasesleep`. -/
  | unlock (p : P) (b : B)
  /-- The buffer is changed, by the process that has it locked or by the buffer cache. -/
  | change (b : B) (x : Buf α)
  /-- `iderw` up to `acquire`. -/
  | call (p : P) (b : B)
  /-- `iderw` from `acquire` on. -/
  | iderw (p : P)
  /-- The process is made runnable for another reason. -/
  | wake (p : P)
  /-- The process runs again. -/
  | resume (p : P)
  /-- The interrupt. -/
  | ideintr
  /-- A disk performs the command, or fails to. -/
  | perform (fails : Bool)

/-- The steps, with `havedisk1`. Requests are for buffers that the process has locked, with a
block number below `FSSIZE`, and that are dirty or not valid. -/
def step (havedisk1 : Bool) (s : State P B α) : Action P B α → Option (State P B α)
  | .lock p b =>
    if s.pc p = .idle ∧ s.lock b = none then
      some { s with lock := Function.update s.lock b (some p) }
    else none
  | .unlock p b =>
    if s.pc p = .idle ∧ s.lock b = some p then
      some { s with lock := Function.update s.lock b none }
    else none
  | .change b x =>
    if (s.lock b).all fun p => s.pc p = .idle then some (s.setBuf b x) else none
  | .call p b =>
    if s.pc p = .idle ∧ s.lock b = some p ∧ (s.buf b).blockno < fssize ∧
        (s.buf b).synced = false ∧ ((s.buf b).dev = 0 ∨ havedisk1) then
      some (s.goto p (.entering b))
    else none
  | .iderw p =>
    match s.pc p with
    | .entering b => iderw s p b
    | _ => none
  | .wake p =>
    match s.pc p with
    | .asleep b n => some (s.goto p (.woken b n))
    | _ => none
  | .resume p =>
    match s.pc p with
    | .woken b n => some (iderwWait s p b n)
    | _ => none
  | .ideintr => if s.irq then ideintr s else none
  | .perform fails => perform s fails

/-- No process is in `iderw`, and the disks are idle. -/
def start (buf : B → Buf α) (disk : ℕ → ℕ → α) (port : α) : State P B α :=
  { buf, lock := fun _ => none, idequeue := [], pc := fun _ => .idle, disk, command := none,
    err := false, port, irq := false, queued := [], completed := [], returned := [] }

/-- The guard that admits the steps in which no disk reports an error. -/
def noError : List (Action P B α) → State P B α → Action P B α → Prop
  | _, _, .perform fails => fails = false
  | _, _, _ => True

instance : ∀ (trace : List (Action P B α)) (s : State P B α) (a : Action P B α),
    Decidable (noError trace s a)
  | _, _, .perform fails => inferInstanceAs (Decidable (fails = false))
  | _, _, .lock _ _ | _, _, .unlock _ _ | _, _, .change _ _ | _, _, .call _ _ | _, _, .iderw _
  | _, _, .wake _ | _, _, .resume _ | _, _, .ideintr => isTrue trivial

end Xv6.Ide
