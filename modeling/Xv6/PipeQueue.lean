import Xv6.Pipe

/-!
# Pipes are lossless queues

The bytes that the calls of `piperead` return are, in order, the first bytes that `pipewrite`
has stored, and a read of 0 bytes means the end of the data, in every run. Who sleeps on the
pipe sleeps with reason, as long as no `pipewrite` gives up on a full pipe while a reader is
asleep: that return is the only one without a wakeup.
-/

namespace Xv6.PipeRun

open GuardedRun

variable {P : Type*} [DecidableEq P]

/-! ## Positions -/

/-- The positions at which a process holds `p->lock`. -/
def Pc.holds : Pc → Bool
  | .idle => false
  | .write _ .acquire | .write _ .asleep | .write _ .woken => false
  | .read _ .acquire | .read _ .asleep | .read _ .woken => false
  | .close _ .acquire => false
  | _ => true

/-- The bytes that a call of `piperead` has copied. -/
def Pc.copied : Pc → List UInt8
  | .read c _ => c.addr
  | _ => []

/-- The write end is closed and all bytes have been taken. -/
def Pipe.Eof (p : Pipe) : Prop := p.Empty ∧ p.writeopen = false

/-- What holds where a process is: what the tests before that position have found. -/
def Pc.At (p : Pipe) : Pc → Prop
  | .write _ .giveUp => p.Full
  | .write _ .wakeup | .write _ .sleep => p.Full ∧ p.readopen = true
  | .read c .acquire | .read c .asleep | .read c .woken | .read c .empty => c.addr = []
  | .read c .giveUp | .read c .sleep => (p.Empty ∧ p.writeopen = true) ∧ c.addr = []
  | .read c .loop | .read c .copy => c.addr = [] → ¬ p.Empty ∨ p.writeopen = false
  | .read c .done => 0 < c.n → c.addr = [] → p.Eof
  | .read c (.release r) =>
      c.addr = [] ∧ r = -1 ∨ r = c.addr.length ∧ (0 < c.n → c.addr = [] → p.Eof)
  | _ => True

/-- The positions from which a process wakes the sleepers on a channel before it gives up
the lock, unless `pipewrite` returns early. -/
def Pc.owes : Chan → Pc → Bool
  | .nread, .write _ .loop | .nread, .write _ .full | .nread, .write _ .giveUp
  | .nread, .write _ .wakeup | .nread, .write _ .done | .nread, .close true .wakeup => true
  | .nwrite, .read _ .loop | .nwrite, .read _ .copy | .nwrite, .read _ .done
  | .nwrite, .close false .wakeup => true
  | _, _ => false

/-- Why a process sleeps on a channel. -/
def Pipe.Reason (p : Pipe) : Chan → Prop
  | .nread => p.Empty ∧ p.writeopen = true
  | .nwrite => p.Full ∧ p.readopen = true

@[simp] theorem holds_wake (pc : Pc) : pc.wake.holds = pc.holds := by
  cases pc with
  | write c pc => cases pc <;> rfl
  | read c pc => cases pc <;> rfl
  | _ => rfl

@[simp] theorem copied_wake (pc : Pc) : pc.wake.copied = pc.copied := by
  cases pc with
  | write c pc => cases pc <;> rfl
  | read c pc => cases pc <;> rfl
  | _ => rfl

@[simp] theorem chan_wake (pc : Pc) : pc.wake.chan = none := by
  cases pc with
  | write c pc => cases pc <;> rfl
  | read c pc => cases pc <;> rfl
  | _ => rfl

theorem at_wake {p : Pipe} {pc : Pc} : pc.wake.At p ↔ pc.At p := by
  cases pc with
  | write c pc => cases pc <;> rfl
  | read c pc => cases pc <;> rfl
  | _ => rfl

/-- A process without the lock knows nothing of the pipe. -/
theorem at_congr {p p' : Pipe} {pc : Pc} (hout : pc.holds = false) : pc.At p ↔ pc.At p' := by
  cases pc with
  | write c pc => cases pc <;> simp_all [Pc.holds, Pc.At]
  | read c pc => cases pc <;> simp_all [Pc.holds, Pc.At]
  | close w pc => cases pc <;> simp_all [Pc.holds, Pc.At]
  | idle => simp [Pc.At]

/-! ## The bytes -/

theorem dvd_modulus : pipeSize ∣ 2 ^ 32 := by decide

theorem pipeSize_lt_modulus : pipeSize < 2 ^ 32 := by decide

/-- The bytes copied by the call of `piperead` that holds the lock. -/
def State.pending (s : State P) : List UInt8 := (s.lock.map fun q => (s.pc q).copied).getD []

/-- The lock, the history and the positions fit together. -/
structure Core (s : State P) : Prop where
  /-- The buffer holds what has been stored and not taken. -/
  ring : s.pipe.ring.Models s.stored s.taken
  /-- The holder of the lock is the process at a position that holds it. -/
  holder : ∀ q, (s.pc q).holds = true ↔ s.lock = some q
  /-- What the processes have found out still holds. -/
  here : ∀ q, (s.pc q).At s.pipe
  /-- What has been taken was returned or belongs to the call that holds the lock. -/
  returned : s.taken = s.returned ++ s.pending

namespace Core

variable {s s' : State P} {q : P} {pc : Pc}

omit [DecidableEq P] in
/-- The other processes do not hold the lock. -/
theorem other (h : Core s) (hlock : s.lock = some q) {r : P} (hne : r ≠ q) :
    (s.pc r).holds = false := by
  by_contra hholds
  have hr := (h.holder r).mp (by simpa using hholds)
  rw [hlock] at hr
  exact hne (Option.some.inj hr).symm

/-- The holder moves on, and may change the pipe and the history. -/
theorem advance (h : Core s) (hlock : s.lock = some q) (hholds : pc.holds = true)
    {pipe : Pipe} {stored taken : List UInt8} (hring : pipe.ring.Models stored taken)
    (hat : pc.At pipe) (htaken : taken = s.returned ++ pc.copied) :
    Core ({ s with pipe := pipe, stored := stored, taken := taken }.goto q pc) := by
  refine ⟨hring, fun r => ?_, fun r => ?_, ?_⟩
  · simp only [State.goto]
    split_ifs with hr
    · simp [hholds, hlock, hr]
    · exact h.holder r
  · simp only [State.goto]
    split_ifs with hr
    · exact hat
    · exact (at_congr (h.other hlock hr)).mp (h.here r)
  · simpa [State.pending, State.goto, hlock] using htaken

/-- The holder moves on and leaves the pipe alone. -/
theorem goto (h : Core s) (hlock : s.lock = some q) (hholds : pc.holds = true)
    (hat : pc.At s.pipe) (hcopied : pc.copied = (s.pc q).copied) : Core (s.goto q pc) := by
  have htaken : s.taken = s.returned ++ pc.copied := by
    rw [h.returned, hcopied]
    simp [State.pending, hlock]
  exact h.advance hlock hholds h.ring hat htaken

/-- A process takes the lock. -/
theorem acquire (h : Core s) (hacquire : s.acquire q pc = some s') (hholds : pc.holds = true)
    (hat : pc.At s.pipe) (hcopied : pc.copied = []) : Core s' := by
  unfold State.acquire at hacquire
  split_ifs at hacquire with hfree
  cases hacquire
  have hout : ∀ r, (s.pc r).holds = false := by
    intro r
    by_contra hr
    have := (h.holder r).mp (by simpa using hr)
    simp [hfree.1] at this
  refine ⟨h.ring, fun r => ?_, fun r => ?_, ?_⟩
  · simp only [State.goto]
    split_ifs with hr
    · simp [hholds, hr]
    · simp [hout r, Ne.symm hr]
  · simp only [State.goto]
    split_ifs with hr
    · exact hat
    · exact h.here r
  · have hnone : s.taken = s.returned := by simpa [State.pending, hfree.1] using h.returned
    simpa [State.pending, State.goto, hcopied] using hnone

/-- The holder gives up the lock. -/
theorem release (h : Core s) (hlock : s.lock = some q) (hholds : pc.holds = false)
    (hat : pc.At s.pipe) {returned : List UInt8} (hreturned : s.taken = returned) {freed : Bool} :
    Core ({ s with returned := returned, freed := freed }.release q pc) := by
  refine ⟨h.ring, fun r => ?_, fun r => ?_, ?_⟩
  · simp only [State.release, State.goto]
    split_ifs with hr
    · simp [hholds]
    · simp [h.other hlock hr]
  · simp only [State.release, State.goto]
    split_ifs with hr
    · exact hat
    · exact h.here r
  · simpa [State.pending, State.release, State.goto] using hreturned

/-- A process that does not hold the lock moves on without it. -/
theorem outside (h : Core s) (hout : (s.pc q).holds = false) (hholds : pc.holds = false)
    (hat : pc.At s.pipe) : Core (s.goto q pc) := by
  have hlock : s.lock ≠ some q := by
    intro hq
    simp [(h.holder q).mpr hq] at hout
  refine ⟨h.ring, fun r => ?_, fun r => ?_, ?_⟩
  · simp only [State.goto]
    split_ifs with hr
    · simp [hholds, hr, hlock]
    · exact h.holder r
  · simp only [State.goto]
    split_ifs with hr
    · exact hat
    · exact h.here r
  · have hpending : (s.goto q pc).pending = s.pending := by
      unfold State.pending State.goto
      cases hl : s.lock with
      | none => rfl
      | some r =>
        have hr : r ≠ q := fun hr => hlock (hr ▸ hl)
        simp [hr]
    rw [hpending]
    exact h.returned

omit [DecidableEq P] in
/-- Wakeups move sleepers, which hold no lock and have copied nothing. -/
theorem wakeup (h : Core s) (chan : Chan) : Core (s.wakeup chan) := by
  refine ⟨h.ring, fun r => ?_, fun r => ?_, ?_⟩
  · simp only [State.wakeup]
    split_ifs
    · rw [holds_wake]
      exact h.holder r
    · exact h.holder r
  · simp only [State.wakeup]
    split_ifs
    · exact at_wake.mpr (h.here r)
    · exact h.here r
  · have hpending : (s.wakeup chan).pending = s.pending := by
      unfold State.pending State.wakeup
      cases s.lock with
      | none => rfl
      | some r =>
        dsimp only [Option.map_some, Option.getD_some]
        split_ifs
        · exact copied_wake _
        · rfl
    rw [hpending]
    exact h.returned

/-- `kill` moves a sleeper and nothing else. -/
theorem kill (h : Core s) (q : P) {killed : P → Bool} :
    Core ({ s with killed := killed }.goto q (s.pc q).wake) := by
  refine ⟨h.ring, fun r => ?_, fun r => ?_, ?_⟩
  · simp only [State.goto]
    split_ifs with hr
    · rw [holds_wake, hr]
      exact h.holder q
    · exact h.holder r
  · simp only [State.goto]
    split_ifs
    · exact at_wake.mpr (h.here q)
    · exact h.here r
  · have hpending : ({ s with killed := killed }.goto q (s.pc q).wake).pending = s.pending := by
      unfold State.pending State.goto
      cases s.lock with
      | none => rfl
      | some r =>
        dsimp only [Option.map_some, Option.getD_some]
        split_ifs with hr
        · rw [copied_wake, hr]
        · rfl
    rw [hpending]
    exact h.returned

/-! ### One step of each call -/

/-- A step of `pipewrite`. -/
theorem writeStep (h : Core s) {c : WriteCall} {wpc : WritePc} (hpc : s.pc q = .write c wpc)
    (hstep : s.writeStep q c wpc = some s') : Core s' := by
  have hholder := h.holder q
  have hhere := h.here q
  rw [hpc] at hholder hhere
  cases wpc with
  | acquire => exact h.acquire hstep rfl trivial rfl
  | asleep => simp [State.writeStep] at hstep
  | woken => exact h.acquire hstep rfl trivial rfl
  | loop =>
    have hlock : s.lock = some q := hholder.mp rfl
    simp only [State.writeStep, Option.some.injEq] at hstep
    rw [← hstep]
    split_ifs
    · exact h.goto hlock rfl trivial (by simp [hpc, Pc.copied])
    · exact h.goto hlock rfl trivial (by simp [hpc, Pc.copied])
  | full =>
    have hlock : s.lock = some q := hholder.mp rfl
    simp only [State.writeStep] at hstep
    split_ifs at hstep with hfull
    · cases hstep
      exact h.goto hlock rfl hfull (by simp [hpc, Pc.copied])
    · cases hstep
      have hring := h.ring.push dvd_modulus pipeSize_lt_modulus hfull (c.addr c.i)
      have hreturned : s.taken = s.returned := by
        simpa [State.pending, hlock, hpc, Pc.copied] using h.returned
      exact h.advance hlock rfl hring trivial (by simpa [Pc.copied] using hreturned)
  | giveUp =>
    have hlock : s.lock = some q := hholder.mp rfl
    simp only [State.writeStep] at hstep
    split_ifs at hstep with hgive
    · cases hstep
      exact h.goto hlock rfl trivial (by simp [hpc, Pc.copied])
    · cases hstep
      have hopen : s.pipe.readopen = true := by simp_all
      exact h.goto hlock rfl ⟨hhere, hopen⟩ (by simp [hpc, Pc.copied])
  | wakeup =>
    have hlock : s.lock = some q := hholder.mp rfl
    simp only [State.writeStep, Option.some.injEq] at hstep
    rw [← hstep]
    exact (h.wakeup .nread).goto hlock rfl hhere (by simp [State.wakeup, hpc, Pc.chan, Pc.copied])
  | sleep =>
    have hlock : s.lock = some q := hholder.mp rfl
    simp only [State.writeStep, Option.some.injEq] at hstep
    rw [← hstep]
    have hreturned : s.taken = s.returned := by
      simpa [State.pending, hlock, hpc, Pc.copied] using h.returned
    exact h.release hlock rfl (by trivial) hreturned
  | done =>
    have hlock : s.lock = some q := hholder.mp rfl
    simp only [State.writeStep, Option.some.injEq] at hstep
    rw [← hstep]
    exact (h.wakeup .nread).goto hlock rfl trivial (by simp [State.wakeup, hpc, Pc.chan, Pc.copied])
  | release result =>
    have hlock : s.lock = some q := hholder.mp rfl
    simp only [State.writeStep, Option.some.injEq] at hstep
    rw [← hstep]
    have hreturned : s.taken = s.returned := by
      simpa [State.pending, hlock, hpc, Pc.copied] using h.returned
    exact h.release hlock rfl (by trivial) hreturned

/-- A step of `piperead`. -/
theorem readStep (h : Core s) {c : ReadCall} {rpc : ReadPc} (hpc : s.pc q = .read c rpc)
    (hstep : s.readStep q c rpc = some s') : Core s' := by
  have hholder := h.holder q
  have hhere := h.here q
  rw [hpc] at hholder hhere
  have hcopied : ∀ rpc', (Pc.read c rpc').copied = (s.pc q).copied := by
    intro rpc'
    rw [hpc]
    rfl
  cases rpc with
  | acquire => exact h.acquire hstep rfl hhere hhere
  | asleep => simp [State.readStep] at hstep
  | woken => exact h.acquire hstep rfl hhere hhere
  | empty =>
    have hlock : s.lock = some q := hholder.mp rfl
    simp only [State.readStep, Option.some.injEq] at hstep
    rw [← hstep]
    split_ifs with hempty
    · exact h.goto hlock rfl ⟨hempty, hhere⟩ (hcopied _)
    · refine h.goto hlock rfl ?_ (hcopied _)
      intro _
      by_cases hopen : s.pipe.writeopen = true
      · exact .inl fun he => hempty ⟨he, hopen⟩
      · exact .inr (by simpa using hopen)
  | giveUp =>
    have hlock : s.lock = some q := hholder.mp rfl
    simp only [State.readStep, Option.some.injEq] at hstep
    rw [← hstep]
    split_ifs
    · exact h.goto hlock rfl (.inl ⟨hhere.2, rfl⟩) (hcopied _)
    · exact h.goto hlock rfl hhere (hcopied _)
  | sleep =>
    have hlock : s.lock = some q := hholder.mp rfl
    simp only [State.readStep, Option.some.injEq] at hstep
    rw [← hstep]
    have hreturned : s.taken = s.returned := by
      simpa [State.pending, hlock, hpc, Pc.copied, hhere.2] using h.returned
    exact h.release hlock rfl (by exact hhere.2) hreturned
  | loop =>
    have hlock : s.lock = some q := hholder.mp rfl
    simp only [State.readStep, Option.some.injEq] at hstep
    rw [← hstep]
    split_ifs with hmore
    · exact h.goto hlock rfl hhere (hcopied _)
    · refine h.goto hlock rfl ?_ (hcopied _)
      intro hpos hnil
      simp [hnil] at hmore
      omega
  | copy =>
    have hlock : s.lock = some q := hholder.mp rfl
    simp only [State.readStep] at hstep
    split_ifs at hstep with hempty
    · cases hstep
      refine h.goto hlock rfl ?_ (hcopied _)
      intro _ hnil
      exact ⟨hempty, (hhere hnil).resolve_left (not_not_intro hempty)⟩
    · cases hstep
      have hring := h.ring.pop dvd_modulus pipeSize_lt_modulus hempty
      have htaken : s.taken = s.returned ++ c.addr := by
        simpa [State.pending, hlock, hpc, Pc.copied] using h.returned
      refine h.advance hlock rfl hring ?_ ?_
      · intro hnil
        simp at hnil
      · simp [htaken, Pc.copied]
  | done =>
    have hlock : s.lock = some q := hholder.mp rfl
    simp only [State.readStep, Option.some.injEq] at hstep
    rw [← hstep]
    refine (h.wakeup .nwrite).goto hlock rfl (.inr ⟨rfl, hhere⟩) ?_
    simp [State.wakeup, hpc, Pc.chan, Pc.copied]
  | release result =>
    have hlock : s.lock = some q := hholder.mp rfl
    simp only [State.readStep, Option.some.injEq] at hstep
    rw [← hstep]
    have htaken : s.taken = s.returned ++ c.addr := by
      simpa [State.pending, hlock, hpc, Pc.copied] using h.returned
    exact h.release hlock rfl (by trivial) htaken

/-- A step of `pipeclose`. -/
theorem closeStep (h : Core s) {writable : Bool} {cpc : ClosePc}
    (hpc : s.pc q = .close writable cpc) (hstep : s.closeStep q writable cpc = some s') :
    Core s' := by
  have hholder := h.holder q
  rw [hpc] at hholder
  cases cpc with
  | acquire => exact h.acquire hstep rfl trivial rfl
  | mark =>
    have hlock : s.lock = some q := hholder.mp rfl
    simp only [State.closeStep, Option.some.injEq] at hstep
    rw [← hstep]
    have hreturned : s.taken = s.returned := by
      simpa [State.pending, hlock, hpc, Pc.copied] using h.returned
    refine h.advance hlock rfl ?_ trivial (by simpa [Pc.copied] using hreturned)
    cases writable <;> exact h.ring
  | wakeup =>
    have hlock : s.lock = some q := hholder.mp rfl
    simp only [State.closeStep, Option.some.injEq] at hstep
    rw [← hstep]
    refine (h.wakeup _).goto hlock rfl trivial ?_
    simp [State.wakeup, hpc, Pc.chan, Pc.copied]
  | release =>
    have hlock : s.lock = some q := hholder.mp rfl
    simp only [State.closeStep, Option.some.injEq] at hstep
    rw [← hstep]
    have hreturned : s.taken = s.returned := by
      simpa [State.pending, hlock, hpc, Pc.copied] using h.returned
    exact h.release hlock rfl (by trivial) hreturned

/-- A process in no call starts one. -/
theorem call (h : Core s) (hcall : s.call q pc = some s') (hholds : pc.holds = false)
    (hat : pc.At s.pipe) : Core s' := by
  unfold State.call at hcall
  split at hcall
  · rename_i hidle
    cases hcall
    exact h.outside (by rw [hidle]; rfl) hholds hat
  · cases hcall

/-- Every step keeps lock, history and positions consistent. -/
theorem step (h : Core s) {a : Action P} (hstep : step s a = some s') : Core s' := by
  cases a with
  | pipewrite q addr n => exact h.call hstep rfl trivial
  | piperead q n => exact h.call hstep rfl rfl
  | pipeclose q writable => exact h.call hstep rfl trivial
  | run q =>
    simp only [PipeRun.step] at hstep
    split at hstep
    · cases hstep
    · rename_i hpc
      exact h.writeStep hpc hstep
    · rename_i hpc
      exact h.readStep hpc hstep
    · rename_i hpc
      exact h.closeStep hpc hstep
  | kill q =>
    simp only [PipeRun.step, Option.some.injEq] at hstep
    rw [← hstep]
    exact h.kill q

end Core

/-! ## The sleepers -/

@[simp] theorem owes_wake (chan : Chan) (pc : Pc) : pc.wake.owes chan = pc.owes chan := by
  cases pc with
  | write c pc => cases pc <;> cases chan <;> rfl
  | read c pc => cases pc <;> cases chan <;> rfl
  | _ => rfl

/-- A call of `pipewrite` has found the pipe full. -/
def Pc.atGiveUp : Pc → Bool
  | .write _ .giveUp => true
  | _ => false

/-- The steps that strand no reader: `pipewrite` does not give up on a full pipe while a
process is asleep on `&p->nread`. -/
def SparesReaders (s : State P) : Action P → Prop
  | .run q =>
      (s.pc q).atGiveUp = true → s.pipe.readopen = false ∨ s.killed q = true →
        ∀ r, (s.pc r).chan ≠ some .nread
  | _ => True

instance [Fintype P] (s : State P) : ∀ a, Decidable (SparesReaders s a)
  | .run q => inferInstanceAs (Decidable ((s.pc q).atGiveUp = true →
      s.pipe.readopen = false ∨ s.killed q = true → ∀ r, (s.pc r).chan ≠ some .nread))
  | .pipewrite _ _ _ | .piperead _ _ | .pipeclose _ _ | .kill _ => isTrue trivial

/-- Whoever sleeps on a channel has reason to, or the holder of the lock will wake him. -/
def Rested (chan : Chan) (s : State P) : Prop :=
  ∀ r, s.AsleepOn r chan →
    s.pipe.Reason chan ∨ ∃ q, s.lock = some q ∧ (s.pc q).owes chan = true

namespace Rested

variable {chan : Chan} {s s' : State P} {q : P} {pc : Pc}

omit [DecidableEq P] in
/-- With the lock held by `q`, only `q` can owe a wakeup. -/
theorem holder (h : Rested chan s) (hlock : s.lock = some q) {r : P} (hr : s.AsleepOn r chan) :
    s.pipe.Reason chan ∨ (s.pc q).owes chan = true := by
  rcases h r hr with hreason | ⟨q', hq', howes⟩
  · exact .inl hreason
  · rw [hlock] at hq'
    cases hq'
    exact .inr howes

/-- The holder moves on: what kept the sleepers asleep still does, or a wakeup is owed. -/
theorem advance (h : Rested chan s) (hlock : s.lock = some q) (hchan : pc.chan = none)
    {pipe : Pipe} {stored taken : List UInt8}
    (hkeep : (∃ r, s.AsleepOn r chan) → s.pipe.Reason chan ∨ (s.pc q).owes chan = true →
      pipe.Reason chan ∨ pc.owes chan = true) :
    Rested chan ({ s with pipe := pipe, stored := stored, taken := taken }.goto q pc) := by
  intro r hr
  simp only [State.AsleepOn, State.goto] at hr ⊢
  split_ifs at hr with hrq
  · simp [hchan] at hr
  · rcases hkeep ⟨r, hr⟩ (h.holder hlock hr) with hreason | howes
    · exact .inl hreason
    · exact .inr ⟨q, hlock, by simpa using howes⟩

/-- The holder moves on and leaves the pipe alone. -/
theorem goto (h : Rested chan s) (hlock : s.lock = some q) (hchan : pc.chan = none)
    (hkeep : (s.pc q).owes chan = true → pc.owes chan = true) : Rested chan (s.goto q pc) :=
  h.advance hlock hchan fun _ hor => hor.imp_right hkeep

/-- The holder wakes the sleepers on one channel and moves on. -/
theorem wakeup (h : Rested chan s) (hlock : s.lock = some q) (hchan : pc.chan = none) {chan' : Chan}
    (hkeep : chan ≠ chan' → (s.pc q).owes chan = true → pc.owes chan = true) :
    Rested chan ((s.wakeup chan').goto q pc) := by
  intro r hr
  simp only [State.AsleepOn, State.goto, State.wakeup] at hr ⊢
  split_ifs at hr with hrq hwoken
  · simp [hchan] at hr
  · simp at hr
  · have hne : chan ≠ chan' := by
      intro heq
      exact hwoken (heq ▸ hr)
    rcases h.holder hlock hr with hreason | howes
    · exact .inl hreason
    · exact .inr ⟨q, hlock, by simpa using hkeep hne howes⟩

/-- A process takes the free lock. -/
theorem acquire (h : Rested chan s) (hacquire : s.acquire q pc = some s') (hchan : pc.chan = none) :
    Rested chan s' := by
  unfold State.acquire at hacquire
  split_ifs at hacquire with hfree
  cases hacquire
  intro r hr
  simp only [State.AsleepOn, State.goto] at hr ⊢
  split_ifs at hr with hrq
  · simp [hchan] at hr
  · rcases h r hr with hreason | ⟨q', hq', -⟩
    · exact .inl hreason
    · simp [hfree.1] at hq'

/-- The holder owes nothing and gives up the lock; it may fall asleep if it has reason to. -/
theorem release (h : Rested chan s) (hlock : s.lock = some q)
    (howes : (s.pc q).owes chan = false) (hself : pc.chan = some chan → s.pipe.Reason chan)
    {returned : List UInt8} {freed : Bool} :
    Rested chan ({ s with returned := returned, freed := freed }.release q pc) := by
  intro r hr
  simp only [State.AsleepOn, State.goto, State.release] at hr ⊢
  split_ifs at hr with hrq
  · exact .inl (hself hr)
  · rcases h.holder hlock hr with hreason | hq
    · exact .inl hreason
    · simp [howes] at hq

/-- A process without the lock moves on to a position where it is awake. -/
theorem outside (h : Rested chan s) (hlock : s.lock ≠ some q) (hchan : pc.chan = none) :
    Rested chan (s.goto q pc) := by
  intro r hr
  simp only [State.AsleepOn, State.goto] at hr ⊢
  split_ifs at hr with hrq
  · simp [hchan] at hr
  · rcases h r hr with hreason | ⟨q', hq', howes⟩
    · exact .inl hreason
    · have hne : q' ≠ q := fun heq => hlock (heq ▸ hq')
      exact .inr ⟨q', hq', by simpa [hne] using howes⟩

/-- `kill` wakes a sleeper and changes no obligation. -/
theorem kill (h : Rested chan s) (q : P) {killed : P → Bool} :
    Rested chan ({ s with killed := killed }.goto q (s.pc q).wake) := by
  intro r hr
  simp only [State.AsleepOn, State.goto] at hr ⊢
  split_ifs at hr with hrq
  · simp at hr
  · rcases h r hr with hreason | ⟨q', hq', howes⟩
    · exact .inl hreason
    · refine .inr ⟨q', hq', ?_⟩
      split_ifs with heq
      · rw [owes_wake, ← heq]
        exact howes
      · exact howes

/-- A step of `pipewrite`; it strands a reader only if it gives up while one is asleep. -/
theorem writeStep (h : Rested chan s) (hcore : Core s) {c : WriteCall} {wpc : WritePc}
    (hpc : s.pc q = .write c wpc) (hguard : chan = .nread → SparesReaders s (.run q))
    (hstep : s.writeStep q c wpc = some s') : Rested chan s' := by
  have hholder := hcore.holder q
  have hhere := hcore.here q
  rw [hpc] at hholder hhere
  cases wpc with
  | acquire => exact h.acquire hstep rfl
  | asleep => simp [State.writeStep] at hstep
  | woken => exact h.acquire hstep rfl
  | loop =>
    have hlock : s.lock = some q := hholder.mp rfl
    simp only [State.writeStep, Option.some.injEq] at hstep
    rw [← hstep]
    refine h.goto hlock (by split_ifs <;> rfl) ?_
    rw [hpc]
    cases chan <;> split_ifs <;> simp [Pc.owes]
  | full =>
    have hlock : s.lock = some q := hholder.mp rfl
    simp only [State.writeStep] at hstep
    split_ifs at hstep with hfull
    · cases hstep
      refine h.goto hlock rfl ?_
      rw [hpc]
      cases chan <;> simp [Pc.owes]
    · cases hstep
      refine h.advance hlock rfl ?_
      rw [hpc]
      -- a writer sleeps only on a full pipe, and readers will be woken
      cases chan with
      | nread => simp [Pc.owes]
      | nwrite => simp [Pc.owes, Pipe.Reason, hfull]
  | giveUp =>
    have hlock : s.lock = some q := hholder.mp rfl
    simp only [State.writeStep] at hstep
    split_ifs at hstep with hgive
    · cases hstep
      refine h.advance hlock rfl ?_
      rintro ⟨r, hr⟩ hreason
      cases chan with
      | nread =>
        have hspares := hguard rfl
        simp only [SparesReaders, hpc] at hspares
        exact absurd hr (hspares rfl hgive r)
      | nwrite => simpa [hpc, Pc.owes] using hreason
    · cases hstep
      refine h.goto hlock rfl ?_
      rw [hpc]
      cases chan <;> simp [Pc.owes]
  | wakeup =>
    have hlock : s.lock = some q := hholder.mp rfl
    simp only [State.writeStep, Option.some.injEq] at hstep
    rw [← hstep]
    refine h.wakeup hlock rfl ?_
    rw [hpc]
    cases chan <;> simp [Pc.owes]
  | sleep =>
    have hlock : s.lock = some q := hholder.mp rfl
    simp only [State.writeStep, Option.some.injEq] at hstep
    rw [← hstep]
    refine h.release hlock ?_ ?_
    · rw [hpc]
      cases chan <;> rfl
    · rintro ⟨⟩
      exact hhere
  | done =>
    have hlock : s.lock = some q := hholder.mp rfl
    simp only [State.writeStep, Option.some.injEq] at hstep
    rw [← hstep]
    refine h.wakeup hlock rfl ?_
    rw [hpc]
    cases chan <;> simp [Pc.owes]
  | release result =>
    have hlock : s.lock = some q := hholder.mp rfl
    simp only [State.writeStep, Option.some.injEq] at hstep
    rw [← hstep]
    refine h.release hlock ?_ ?_
    · rw [hpc]
      cases chan <;> rfl
    · rintro ⟨⟩

/-- A step of `piperead`. -/
theorem readStep (h : Rested chan s) (hcore : Core s) {c : ReadCall} {rpc : ReadPc}
    (hpc : s.pc q = .read c rpc) (hstep : s.readStep q c rpc = some s') : Rested chan s' := by
  have hholder := hcore.holder q
  have hhere := hcore.here q
  rw [hpc] at hholder hhere
  cases rpc with
  | acquire => exact h.acquire hstep rfl
  | asleep => simp [State.readStep] at hstep
  | woken => exact h.acquire hstep rfl
  | empty =>
    have hlock : s.lock = some q := hholder.mp rfl
    simp only [State.readStep, Option.some.injEq] at hstep
    rw [← hstep]
    refine h.goto hlock (by split_ifs <;> rfl) ?_
    rw [hpc]
    cases chan <;> simp [Pc.owes]
  | giveUp =>
    have hlock : s.lock = some q := hholder.mp rfl
    simp only [State.readStep, Option.some.injEq] at hstep
    rw [← hstep]
    refine h.goto hlock (by split_ifs <;> rfl) ?_
    rw [hpc]
    cases chan <;> simp [Pc.owes]
  | sleep =>
    have hlock : s.lock = some q := hholder.mp rfl
    simp only [State.readStep, Option.some.injEq] at hstep
    rw [← hstep]
    refine h.release hlock ?_ ?_
    · rw [hpc]
      cases chan <;> rfl
    · rintro ⟨⟩
      exact hhere.1
  | loop =>
    have hlock : s.lock = some q := hholder.mp rfl
    simp only [State.readStep, Option.some.injEq] at hstep
    rw [← hstep]
    refine h.goto hlock (by split_ifs <;> rfl) ?_
    rw [hpc]
    cases chan <;> split_ifs <;> simp [Pc.owes]
  | copy =>
    have hlock : s.lock = some q := hholder.mp rfl
    simp only [State.readStep] at hstep
    split_ifs at hstep with hempty
    · cases hstep
      refine h.goto hlock rfl ?_
      rw [hpc]
      cases chan <;> simp [Pc.owes]
    · cases hstep
      refine h.advance hlock rfl ?_
      rw [hpc]
      -- a reader sleeps only on an empty pipe, and writers will be woken
      cases chan with
      | nread => simp [Pc.owes, Pipe.Reason, hempty]
      | nwrite => simp [Pc.owes]
  | done =>
    have hlock : s.lock = some q := hholder.mp rfl
    simp only [State.readStep, Option.some.injEq] at hstep
    rw [← hstep]
    refine h.wakeup hlock rfl ?_
    rw [hpc]
    cases chan <;> simp [Pc.owes]
  | release result =>
    have hlock : s.lock = some q := hholder.mp rfl
    simp only [State.readStep, Option.some.injEq] at hstep
    rw [← hstep]
    refine h.release hlock ?_ ?_
    · rw [hpc]
      cases chan <;> rfl
    · rintro ⟨⟩

/-- A step of `pipeclose`. -/
theorem closeStep (h : Rested chan s) (hcore : Core s) {writable : Bool} {cpc : ClosePc}
    (hpc : s.pc q = .close writable cpc) (hstep : s.closeStep q writable cpc = some s') :
    Rested chan s' := by
  have hholder := hcore.holder q
  rw [hpc] at hholder
  cases cpc with
  | acquire => exact h.acquire hstep rfl
  | mark =>
    have hlock : s.lock = some q := hholder.mp rfl
    simp only [State.closeStep, Option.some.injEq] at hstep
    rw [← hstep]
    refine h.advance hlock rfl ?_
    rw [hpc]
    cases chan <;> cases writable <;> simp [Pc.owes, Pipe.Reason, Pipe.Empty, Pipe.Full]
  | wakeup =>
    have hlock : s.lock = some q := hholder.mp rfl
    simp only [State.closeStep, Option.some.injEq] at hstep
    rw [← hstep]
    refine h.wakeup hlock rfl ?_
    rw [hpc]
    cases chan <;> cases writable <;> simp [Pc.owes]
  | release =>
    have hlock : s.lock = some q := hholder.mp rfl
    simp only [State.closeStep, Option.some.injEq] at hstep
    rw [← hstep]
    refine h.release hlock ?_ ?_
    · rw [hpc]
      cases chan <;> cases writable <;> rfl
    · rintro ⟨⟩

/-- A process in no call starts one. -/
theorem call (h : Rested chan s) (hcore : Core s) (hcall : s.call q pc = some s')
    (hchan : pc.chan = none) : Rested chan s' := by
  unfold State.call at hcall
  split at hcall
  · rename_i hidle
    cases hcall
    refine h.outside ?_ hchan
    intro hlock
    have hholds := (hcore.holder q).mpr hlock
    rw [hidle] at hholds
    cases hholds
  · cases hcall

/-- Every step that strands no reader leaves the sleepers with reason to sleep. -/
theorem step (h : Rested chan s) (hcore : Core s) {a : Action P}
    (hguard : chan = .nread → SparesReaders s a) (hstep : step s a = some s') : Rested chan s' := by
  cases a with
  | pipewrite q addr n => exact h.call hcore hstep rfl
  | piperead q n => exact h.call hcore hstep rfl
  | pipeclose q writable => exact h.call hcore hstep rfl
  | run q =>
    simp only [PipeRun.step] at hstep
    split at hstep
    · cases hstep
    · rename_i hpc
      exact h.writeStep hcore hpc hguard hstep
    · rename_i hpc
      exact h.readStep hcore hpc hstep
    · rename_i hpc
      exact h.closeStep hcore hpc hstep
  | kill q =>
    simp only [PipeRun.step, Option.some.injEq] at hstep
    rw [← hstep]
    exact h.kill q

end Rested

/-! ## Runs -/

/-- What is claimed of the bytes. -/
structure Lossless (s : State P) : Prop where
  /-- The bytes returned by `piperead` are the first ones stored. -/
  returned : s.returned <+: s.stored
  /-- So are the bytes taken, also by a call that has not returned. -/
  taken : s.taken <+: s.stored
  /-- At most `PIPESIZE` bytes are outstanding. -/
  outstanding : s.stored.length ≤ s.taken.length + pipeSize
  /-- The counters agree exactly when no byte is outstanding. -/
  empty : s.pipe.Empty ↔ s.stored.length = s.taken.length
  /-- They are `PIPESIZE` apart exactly when that many bytes are outstanding. -/
  full : s.pipe.Full ↔ s.stored.length = s.taken.length + pipeSize
  /-- `piperead` returns 0 only at the end of the data. -/
  eof : ∀ q c, s.pc q = .read c (.release 0) → 0 < c.n →
    s.pipe.Empty ∧ s.pipe.writeopen = false

/-- What is claimed of the sleepers: when the lock is free, readers sleep on an empty pipe with
its write end open, and writers on a full pipe with its read end open. -/
def NoneStranded (s : State P) : Prop :=
  s.lock = none → ∀ q chan, s.AsleepOn q chan → s.pipe.Reason chan

omit [DecidableEq P] in
/-- Consistent states are lossless. -/
theorem Core.lossless {s : State P} (h : Core s) : Lossless s where
  returned := by
    have hprefix : s.returned <+: s.taken := ⟨s.pending, h.returned.symm⟩
    exact hprefix.trans h.ring.isPrefix
  taken := h.ring.isPrefix
  outstanding := h.ring.outstanding
  empty := h.ring.empty_iff pipeSize_lt_modulus
  full := h.ring.full_iff pipeSize_lt_modulus
  eof := by
    intro q c hpc hpos
    have hhere := h.here q
    rw [hpc] at hhere
    rcases hhere with ⟨-, hr⟩ | ⟨hr, heof⟩
    · omega
    · exact heof hpos (List.length_eq_zero_iff.mp (by omega))

omit [DecidableEq P] in
/-- A new pipe is consistent. -/
theorem Core.init (data : Fin pipeSize → UInt8) (killed : P → Bool) :
    Core (State.init data killed) where
  ring := .start rfl rfl
  holder := fun q => by simp [State.init, Pc.holds]
  here := fun q => trivial
  returned := by simp [State.init, State.pending]

section

variable {data : Fin pipeSize → UInt8} {killed : P → Bool} {trace : List (Action P)} {s : State P}

/-- Every run keeps lock, history and positions consistent. -/
theorem core_run {guard : List (Action P) → State P → Action P → Prop}
    (hrun : Run step guard (State.init data killed) trace s) : Core s := by
  refine Run.invariant (I := fun _ s => Core s) (Core.init data killed) ?_ hrun
  intro _ s a s' hcore _ hstep
  exact hcore.step hstep

/-- In every run the pipe is a lossless queue. -/
theorem lossless_run (hrun : Run step free (State.init data killed) trace s) : Lossless s :=
  (core_run hrun).lossless

/-- In every run writers sleep only on a full pipe with its read end open, and in a run that
strands no reader the same holds of the readers. -/
theorem rested_run {guard : List (Action P) → State P → Action P → Prop} {chan : Chan}
    (hguard : ∀ trace s a, guard trace s a → chan = .nread → SparesReaders s a)
    (hrun : Run step guard (State.init data killed) trace s) : Rested chan s := by
  have hstart : Rested chan (State.init data killed) := by
    intro r hr
    simp [State.AsleepOn, State.init, Pc.chan] at hr
  have hboth : Core s ∧ Rested chan s := by
    refine Run.invariant (I := fun _ s => Core s ∧ Rested chan s)
      ⟨.init data killed, hstart⟩ ?_ hrun
    · intro trace s a s' ⟨hcore, hrest⟩ ha hstep
      exact ⟨hcore.step hstep, hrest.step hcore (hguard trace s a ha) hstep⟩
  exact hboth.2

omit [DecidableEq P] in
/-- With the lock free nobody owes a wakeup. -/
theorem Rested.reason {chan : Chan} (h : Rested chan s) (hlock : s.lock = none) {q : P}
    (hq : s.AsleepOn q chan) : s.pipe.Reason chan := by
  rcases h q hq with hreason | ⟨r, hr, -⟩
  · exact hreason
  · simp [hlock] at hr

/-- Pipes are lossless queues, and in a run in which no `pipewrite` gives up on a full pipe
while a reader is asleep, nobody sleeps without reason. -/
theorem pipe_queue
    (hrun : Run step (fun _ => SparesReaders) (State.init data killed) trace s) :
    Lossless s ∧ NoneStranded s := by
  refine ⟨(core_run hrun).lossless, ?_⟩
  intro hlock q chan hq
  have hrest : Rested chan s := rested_run (fun _ _ _ hspares _ => hspares) hrun
  exact hrest.reason hlock hq

/-- A `pipewrite` that gives up on a full pipe while a process is asleep on `&p->nread` leaves
that process asleep on a pipe full of data. -/
theorem stranded_of_giveUp (hrun : Run step free (State.init data killed) trace s) {q : P}
    {c : WriteCall} (hpc : s.pc q = .write c .giveUp)
    (hgive : s.pipe.readopen = false ∨ s.killed q = true) {r : P} (hr : s.AsleepOn r .nread) :
    ∃ s', Run step free (State.init data killed) (.run q :: .run q :: trace) s' ∧
      ¬ NoneStranded s' := by
  have hcore := core_run hrun
  have hfull : s.pipe.Full := by
    have hhere := hcore.here q
    rwa [hpc] at hhere
  have hne : r ≠ q := by
    rintro rfl
    simp [State.AsleepOn, hpc, Pc.chan] at hr
  let s₁ := s.goto q (.write c (.release (-1)))
  have hfirst : step s (.run q) = some s₁ := by
    simp only [step, hpc, State.writeStep, if_pos hgive, s₁]
  have hsecond : step s₁ (.run q) = some (s₁.release q .idle) := by
    simp [step, s₁, State.goto, State.writeStep]
  refine ⟨s₁.release q .idle, .step (.step hrun trivial hfirst) trivial hsecond, ?_⟩
  intro hnone
  have hasleep : (s₁.release q .idle).AsleepOn r .nread := by
    simpa [s₁, State.AsleepOn, State.release, State.goto, hne] using hr
  have hreason : s.pipe.Empty ∧ s.pipe.writeopen = true := hnone rfl r .nread hasleep
  have hempty := (hcore.ring.empty_iff pipeSize_lt_modulus).mp hreason.1
  have hfull' := (hcore.ring.full_iff pipeSize_lt_modulus).mp hfull
  have hpos : 0 < pipeSize := by decide
  omega

end

/-- A reader falls asleep on the empty pipe; a writer stores two bytes and wakes it, and the
reader takes both. -/
def readAcrossSleep (reader writer : P) : List (Action P) :=
  .piperead reader 2 :: List.replicate 4 (.run reader) ++
    .pipewrite writer (fun i => UInt8.ofNat i) 2 :: List.replicate 8 (.run writer) ++
    List.replicate 9 (.run reader)

/-- After that run the two bytes have been returned, and nobody is stranded. -/
theorem pipe_queue_readAcrossSleep :
    ∃ s : State (Fin 2), exec step (fun _ => SparesReaders) []
        (State.init (fun _ => 0) fun _ => false) (readAcrossSleep 0 1) = some s ∧
      s.returned = [0, 1] ∧ Lossless s ∧ NoneStranded s := by
  have hexec : (exec step (fun _ => SparesReaders) []
      (State.init (fun _ => 0) fun _ : Fin 2 => false) (readAcrossSleep 0 1)).any
        (fun s => s.returned == [0, 1]) = true := by
    decide +kernel
  obtain ⟨s, hs, hreturned⟩ := (Option.any_eq_true _ _).mp hexec
  exact ⟨s, hs, by simpa using hreturned, pipe_queue (run_of_exec hs)⟩

/-- A reader falls asleep on the empty pipe; a writer of 513 bytes takes the lock, is marked by
`kill`, fills the pipe and gives up. -/
def giveUpOnSleeper (reader writer : P) : List (Action P) :=
  .piperead reader 1 :: List.replicate 4 (.run reader) ++
    [.pipewrite writer (fun _ => 0) 513, .run writer, .kill writer] ++
    List.replicate (2 * pipeSize + 4) (.run writer)

/-- After that run the lock is free and the reader is asleep on a full pipe. -/
theorem pipe_strands_reader :
    ¬ ∀ (trace : List (Action (Fin 2))) (s : State (Fin 2)),
      Run step free (State.init (fun _ => 0) fun _ => false) trace s →
        Lossless s ∧ NoneStranded s := by
  intro hclaim
  have hexec : (exec step free [] (State.init (fun _ => 0) fun _ : Fin 2 => false)
      (giveUpOnSleeper 0 1)).any (fun s =>
        s.lock.isNone && (s.pc 0).chan == some .nread && !decide s.pipe.Empty) = true := by
    decide +kernel
  obtain ⟨s, hs, hstate⟩ := (Option.any_eq_true _ _).mp hexec
  simp only [Bool.and_eq_true, Option.isNone_iff_eq_none, beq_iff_eq, Bool.not_eq_true',
    decide_eq_false_iff_not] at hstate
  obtain ⟨⟨hlock, hasleep⟩, hempty⟩ := hstate
  have hreason := (hclaim _ s (run_of_exec hs)).2 hlock 0 .nread hasleep
  exact hempty hreason.1

end Xv6.PipeRun
