import Mathlib

/-!
# Programs over a block device that may stop

A program reads and writes the blocks of a device through a cache of modified blocks. The
machine may stop between any two writes; what is left then is the device. A triple states
what holds of the device at every point where the machine may stop, and what holds at the
end. A program that can start again from every point at which it may stop is a recovery
procedure: it reaches its postcondition through any number of further stops.
-/

namespace CrashProg

universe u

variable {ι β α γ : Type u}

/-- The cached blocks and the device. -/
structure Machine (ι β : Type u) where
  /-- Blocks in memory. -/
  cache : ι → Option β
  /-- Blocks on the device. -/
  disk : ι → β

/-- The content of a block, from the cache if it is there. -/
def Machine.read (m : Machine ι β) (i : ι) : β := (m.cache i).getD (m.disk i)

/-- The machine after it was started: nothing is cached. -/
def Machine.boot (d : ι → β) : Machine ι β := ⟨fun _ => none, d⟩

@[simp] theorem Machine.boot_read (d : ι → β) (i : ι) : (Machine.boot d).read i = d i := rfl

/-- A program: the end, a read, or a write of a whole block. Reads that only fill the cache
with what is on the device cannot be observed, so they leave the machine as it is. -/
inductive Prog (ι β : Type u) : Type u → Type (u + 1)
  | ret {α : Type u} (a : α) : Prog ι β α
  | bread {α : Type u} (i : ι) (next : β → Prog ι β α) : Prog ι β α
  | bwrite {α : Type u} (i : ι) (x : β) (next : Prog ι β α) : Prog ι β α

namespace Prog

/-- Sequential composition. -/
def bind : Prog ι β α → (α → Prog ι β γ) → Prog ι β γ
  | ret a, f => f a
  | bread i next, f => bread i fun x => (next x).bind f
  | bwrite i x next, f => bwrite i x (next.bind f)

/-- Read a block. -/
def read (i : ι) : Prog ι β β := bread i ret

/-- Write a block. -/
def write (i : ι) (x : β) : Prog ι β PUnit := bwrite i x (ret ⟨⟩)

instance : Monad (Prog ι β) where
  pure := ret
  bind := bind

/-- The body for `0, …, n - 1`, in this order. -/
def loop (body : ℕ → Prog ι β PUnit) : ℕ → Prog ι β PUnit
  | 0 => ret ⟨⟩
  | n + 1 => (loop body n).bind fun _ => body n

end Prog

variable [DecidableEq ι]

/-- Write a block through the cache. -/
def Machine.write (m : Machine ι β) (i : ι) (x : β) : Machine ι β :=
  ⟨Function.update m.cache i (some x), Function.update m.disk i x⟩

@[simp] theorem Machine.write_disk (m : Machine ι β) (i j : ι) (x : β) :
    (m.write i x).disk j = if j = i then x else m.disk j := by
  simp [Machine.write, Function.update_apply]

@[simp] theorem Machine.write_read (m : Machine ι β) (i j : ι) (x : β) :
    (m.write i x).read j = if j = i then x else m.read j := by
  unfold Machine.read Machine.write
  by_cases hj : j = i <;> simp [hj]

namespace Prog

/-- A run to the end. -/
def run : Prog ι β α → Machine ι β → α × Machine ι β
  | ret a, m => (a, m)
  | bread i next, m => (next (m.read i)).run m
  | bwrite i x next, m => next.run (m.write i x)

/-- The number of writes of a run. -/
def writes : Prog ι β α → Machine ι β → ℕ
  | ret _, _ => 0
  | bread i next, m => (next (m.read i)).writes m
  | bwrite i x next, m => next.writes (m.write i x) + 1

/-- The device when the machine stops after `k` writes, or at the end. -/
def stopped : ℕ → Prog ι β α → Machine ι β → ι → β
  | _, ret _, m => m.disk
  | k, bread i next, m => stopped k (next (m.read i)) m
  | 0, bwrite _ _ _, m => m.disk
  | k + 1, bwrite i x next, m => stopped k next (m.write i x)

theorem run_bind (p : Prog ι β α) (f : α → Prog ι β γ) (m : Machine ι β) :
    (p.bind f).run m = (f (p.run m).1).run (p.run m).2 := by
  induction p generalizing m with
  | ret a => rfl
  | bread i next ih => exact ih _ _
  | bwrite i x next ih => exact ih _

theorem writes_bind (p : Prog ι β α) (f : α → Prog ι β γ) (m : Machine ι β) :
    (p.bind f).writes m = p.writes m + (f (p.run m).1).writes (p.run m).2 := by
  induction p generalizing m with
  | ret a => simp [bind, writes, run]
  | bread i next ih => exact ih _ _
  | bwrite i x next ih =>
    rw [bind, writes, ih, writes, run]
    omega

/-- A loop whose body writes one block writes as many blocks as it has rounds. -/
theorem writes_loop {body : ℕ → Prog ι β PUnit} (hbody : ∀ i m, (body i).writes m = 1) (n : ℕ)
    (m : Machine ι β) : (loop body n).writes m = n := by
  induction n with
  | zero => rfl
  | succ n ih => rw [loop, writes_bind, ih, hbody]

/-- The machine stops in the first part of a program, or in the second part after all writes
of the first. -/
theorem stopped_bind (k : ℕ) (p : Prog ι β α) (f : α → Prog ι β γ) (m : Machine ι β) :
    (p.bind f).stopped k m =
      if k < p.writes m then p.stopped k m
      else (f (p.run m).1).stopped (k - p.writes m) (p.run m).2 := by
  induction p generalizing k m with
  | ret a => simp [bind, writes, run]
  | bread i next ih =>
    rw [bind, stopped, ih]
    rfl
  | bwrite i x next ih =>
    cases k with
    | zero => simp [bind, stopped, writes]
    | succ k =>
      rw [bind, stopped, ih]
      simp [writes, run, stopped]

end Prog

open Prog

/-! ## Triples -/

/-- From a machine that satisfies the precondition, the device satisfies the crash condition
wherever the machine stops, and result and machine satisfy the postcondition at the end. -/
def Triple (pre : Machine ι β → Prop) (crash : (ι → β) → Prop) (p : Prog ι β α)
    (post : α → Machine ι β → Prop) : Prop :=
  ∀ m, pre m → (∀ k, crash (p.stopped k m)) ∧ post (p.run m).1 (p.run m).2

variable {pre : Machine ι β → Prop} {crash : (ι → β) → Prop}

/-- A triple may be proved for one machine at a time. -/
theorem Triple.pointwise {p : Prog ι β α} {post : α → Machine ι β → Prop}
    (h : ∀ m, pre m → Triple (fun m' => m' = m) crash p post) : Triple pre crash p post :=
  fun m hm => h m hm m rfl

theorem Triple.ret {a : α} {post : α → Machine ι β → Prop} (hcrash : ∀ m, pre m → crash m.disk)
    (hpost : ∀ m, pre m → post a m) : Triple pre crash (.ret a) post := by
  intro m hm
  refine ⟨fun k => ?_, hpost m hm⟩
  cases k <;> exact hcrash m hm

/-- What a read returns is what the machine holds. -/
theorem Triple.read {i : ι} (hcrash : ∀ m, pre m → crash m.disk) :
    Triple pre crash (read i) fun x m => pre m ∧ x = m.read i := by
  intro m hm
  refine ⟨fun k => ?_, hm, rfl⟩
  cases k <;> exact hcrash m hm

/-- The machine may stop before or after a write. -/
theorem Triple.write {i : ι} {x : β} {post : PUnit → Machine ι β → Prop}
    (hbefore : ∀ m, pre m → crash m.disk) (hafter : ∀ m, pre m → crash (m.write i x).disk)
    (hpost : ∀ m, pre m → post ⟨⟩ (m.write i x)) : Triple pre crash (write i x) post := by
  intro m hm
  refine ⟨fun k => ?_, hpost m hm⟩
  rcases k with _ | k
  · exact hbefore m hm
  · cases k <;> exact hafter m hm

theorem Triple.bind {p : Prog ι β α} {f : α → Prog ι β γ} {mid : α → Machine ι β → Prop}
    {post : γ → Machine ι β → Prop} (hp : Triple pre crash p mid)
    (hf : ∀ a, Triple (mid a) crash (f a) post) : Triple pre crash (p.bind f) post := by
  intro m hm
  obtain ⟨hstop, hmid⟩ := hp m hm
  obtain ⟨hstop', hpost⟩ := hf _ _ hmid
  constructor
  · intro k
    rw [stopped_bind]
    split_ifs
    · exact hstop k
    · exact hstop' _
  · rwa [run_bind]

theorem Triple.consequence {pre' : Machine ι β → Prop} {crash' : (ι → β) → Prop} {p : Prog ι β α}
    {post post' : α → Machine ι β → Prop} (h : Triple pre' crash' p post')
    (hpre : ∀ m, pre m → pre' m) (hcrash : ∀ d, crash' d → crash d)
    (hpost : ∀ a m, post' a m → post a m) : Triple pre crash p post := by
  intro m hm
  obtain ⟨hstop, hend⟩ := h m (hpre m hm)
  exact ⟨fun k => hcrash _ (hstop k), hpost _ _ hend⟩

/-- A loop invariant that bounds the stops as well. -/
theorem Triple.loop {body : ℕ → Prog ι β PUnit} {I : ℕ → Machine ι β → Prop} {n : ℕ}
    (hcrash : ∀ m, I 0 m → crash m.disk)
    (hbody : ∀ i < n, Triple (I i) crash (body i) fun _ => I (i + 1)) :
    Triple (I 0) crash (Prog.loop body n) fun _ => I n := by
  induction n with
  | zero => exact .ret hcrash fun _ hm => hm
  | succ n ih =>
    have hfirst := ih fun i hi => hbody i (Nat.lt_succ_of_lt hi)
    exact hfirst.bind fun _ => hbody n (Nat.lt_succ_self n)

/-! ## Recovery -/

/-- The device after a program that is started anew after each of some stops has run to the
end. -/
def recoverThrough (p : Prog ι β α) : List ℕ → (ι → β) → ι → β
  | [], d => (p.run (.boot d)).2.disk
  | k :: stops, d => recoverThrough p stops (p.stopped k (.boot d))

/-- A program that can be started at every point where it may stop reaches its postcondition
in the end. -/
theorem Triple.recoverThrough {p : Prog ι β α} {post : (ι → β) → Prop}
    (h : Triple (fun m => ∃ d, crash d ∧ m = .boot d) crash p fun _ m => post m.disk)
    {d : ι → β} (hd : crash d) (stops : List ℕ) : post (CrashProg.recoverThrough p stops d) := by
  induction stops generalizing d with
  | nil => exact (h _ ⟨d, hd, rfl⟩).2
  | cons k stops ih => exact ih ((h _ ⟨d, hd, rfl⟩).1 k)

end CrashProg
