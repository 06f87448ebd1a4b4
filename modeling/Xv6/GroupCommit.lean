import Xv6.LogOperations

/-!
# Group commit

Along every interleaving a commit runs only while no operation does, so that the blocks of an
operation are all written by the commit that follows its end, and a process sleeps in
`begin_op` only while it has a reason to. What a step does is stated once, by the role of the
place of the process before and after it; the invariants are derived from that.
-/

namespace Xv6.LogOperations

open GuardedRun

/-- What a place in the code means for the other processes. -/
structure Role where
  /-- The process holds `log.lock`. -/
  holdsLog : Bool := false
  /-- The process holds `ptable.lock`. -/
  holdsPtable : Bool := false
  /-- The process is counted in `log.outstanding`. -/
  inOp : Bool := false
  /-- The process has set `log.committing`. -/
  committing : Bool := false
  /-- The process has decided to sleep and has not been woken. -/
  sleeping : Bool := false
  /-- The process is about to wake the sleepers. -/
  waking : Bool := false
  /-- The process has written the header of its commit and not yet emptied it. -/
  installing : Bool := false

/-- The role of a place. -/
def Pc.role : Pc → Role
  | .outside | .beginAcquire | .runnable => {}
  | .beginTest | .endUnlock | .panicCommitting => { holdsLog := true }
  | .beginRelease | .logAbsorb _ | .logRelease | .endBody => { holdsLog := true, inOp := true }
  | .sleepAcquire => { holdsLog := true, sleeping := true }
  | .sleepUnlock => { holdsLog := true, holdsPtable := true, sleeping := true }
  | .sleepMark | .sleepSched => { holdsPtable := true, sleeping := true }
  | .asleep => { sleeping := true }
  | .resumed => { holdsPtable := true }
  | .inOp | .logSize _ | .logOutstanding _ | .logAcquire _ | .endAcquire | .panicTooBig
  | .panicOutside => { inOp := true }
  | .wakeAcquire => { holdsLog := true, waking := true }
  | .wakeBody => { holdsLog := true, holdsPtable := true, waking := true }
  | .wakeRelease => { holdsLog := true, holdsPtable := true }
  | .commitUnlock | .commitEnd => { holdsLog := true, committing := true }
  | .commitTest | .writeLog _ _ | .writeHead _ | .eraseHead | .commitAcquire =>
      { committing := true }
  | .installTrans _ | .clear => { committing := true, installing := true }

/-- How far a commit is: `write_log` has copied the first blocks of the header, and in the end the
header is empty. -/
def Copied (lh : LogHeader) : Pc → Prop
  | .writeLog tail copied => tail ≤ lh.n ∧ copied = (List.range tail).map lh.block
  | .writeHead copied => copied = lh.blocks
  | .eraseHead | .commitAcquire | .commitEnd => lh.n = 0
  | _ => True

section

variable {P : Type*} [DecidableEq P]

/-- The role of a process. -/
def State.role (s : State P) (q : P) : Role := (s.pc q).role

@[simp] theorem State.role_goto (s : State P) (p q : P) (c : Pc) :
    (s.goto p c).role q = if q = p then c.role else s.role q := by
  simp only [role, goto]
  split_ifs <;> rfl

/-- The steps of a process that leave the fields of `log` alone. -/
inductive Quiet (s : State P) (p : P) : State P → Prop
  /-- The process moves on in its role. -/
  | move {c : Pc} (hrole : c.role = s.role p) (hcopied : Copied s.lh (s.pc p) → Copied s.lh c) :
      Quiet s p (s.goto p c)
  /-- `log_write` tests the size of the transaction. -/
  | check {b : ℕ} {c : Pc} (hpc : s.pc p = .logSize b) (hc : c.role = { inOp := true })
      (hcopied : Copied s.lh c) : Quiet s p ((s.record (.check p)).goto p c)
  /-- The process takes `log.lock`. -/
  | lockLog {c : Pc} (hfree : s.logLock = none) (hpc : (s.role p).holdsLog = false)
      (hrole : c.role = { s.role p with holdsLog := true })
      (hcopied : Copied s.lh (s.pc p) → Copied s.lh c) :
      Quiet s p ({ s with logLock := some p }.goto p c)
  /-- The process releases `log.lock`. -/
  | unlockLog {c : Pc} (hpc : (s.role p).holdsLog = true)
      (hrole : c.role = { s.role p with holdsLog := false }) (hcopied : Copied s.lh c) :
      Quiet s p (s.unlockLog p c)
  /-- The process takes `ptable.lock`. -/
  | lockPtable {c : Pc} (hfree : s.ptableLock = none) (hpc : (s.role p).holdsPtable = false)
      (hrole : c.role = { s.role p with holdsPtable := true }) (hcopied : Copied s.lh c) :
      Quiet s p ({ s with ptableLock := some p }.goto p c)
  /-- The process releases `ptable.lock`. -/
  | unlockPtable {c : Pc} (hpc : (s.role p).holdsPtable = true)
      (hrole : c.role = { s.role p with holdsPtable := false }) (hcopied : Copied s.lh c) :
      Quiet s p (s.unlockPtable p c)
  /-- `begin_op` decides to sleep. -/
  | sleep (hpc : s.pc p = .beginTest) (hblocked : s.committing = true ∨ s.NoRoom) :
      Quiet s p (s.goto p .sleepAcquire)
  /-- `kill` wakes a sleeper. -/
  | kill (hpc : s.pc p = .asleep) : Quiet s p (s.goto p .runnable)
  /-- `wakeup`. -/
  | wake (hpc : s.pc p = .wakeBody) :
      Quiet s p (State.goto
        { s with pc := fun q => if s.pc q = .asleep then .runnable else s.pc q } p .wakeRelease)

/-- What a step of a process does. -/
inductive Effect (s : State P) (p : P) : State P → Prop
  /-- Nothing to the fields of `log`. -/
  | quiet {s' : State P} (hquiet : Quiet s p s') : Effect s p s'
  /-- `begin_op` admits the operation. -/
  | enter (hpc : s.pc p = .beginTest) (hcommitting : s.committing = false) (hroom : ¬ s.NoRoom) :
      Effect s p
        (({ s with outstanding := s.outstanding + 1 }.record (.enter p)).goto p .beginRelease)
  /-- `log_write` enters a block into the header. -/
  | absorb {b : ℕ} (hpc : s.pc p = .logAbsorb b) :
      Effect s p (({ s with lh := s.lh.absorb b }.record (.logged p b)).goto p .logRelease)
  /-- `end_op` finds that a commit is running. -/
  | leavePanic (hpc : s.pc p = .endBody) (hcommitting : s.committing = true) :
      Effect s p
        (({ s with outstanding := s.outstanding - 1 }.record (.leave p)).goto p .panicCommitting)
  /-- `end_op` of the last operation decides to commit. -/
  | leaveCommit (hpc : s.pc p = .endBody) (hcommitting : s.committing = false)
      (hlast : s.outstanding - 1 = 0) :
      Effect s p ({ { s with outstanding := s.outstanding - 1 }.record (.leave p) with
        committing := true }.goto p .commitUnlock)
  /-- `end_op` of another operation. -/
  | leaveWake (hpc : s.pc p = .endBody) (hcommitting : s.committing = false)
      (hmore : s.outstanding - 1 ≠ 0) :
      Effect s p
        (({ s with outstanding := s.outstanding - 1 }.record (.leave p)).goto p .wakeAcquire)
  /-- `commit` writes the header of the transaction. -/
  | writeHead {copied : List ℕ} (hpc : s.pc p = .writeHead copied) :
      Effect s p ((s.record (.commit p copied s.lh.blocks)).goto p (.installTrans 0))
  /-- `commit` empties the header in memory. -/
  | clear (hpc : s.pc p = .clear) :
      Effect s p ({ s with lh := { s.lh with n := 0 } }.goto p .eraseHead)
  /-- `end_op` after the commit. -/
  | commitEnd (hpc : s.pc p = .commitEnd) :
      Effect s p ({ s with committing := false }.goto p .wakeAcquire)

/-- Taking `log.lock` needs the lock to be free. -/
theorem effect_of_lockLog {s s' : State P} {p : P} {c : Pc} (hs' : s.lockLog p c = some s')
    (hpc : (s.role p).holdsLog = false) (hrole : c.role = { s.role p with holdsLog := true })
    (hcopied : Copied s.lh (s.pc p) → Copied s.lh c) : Effect s p s' := by
  unfold State.lockLog at hs'
  split_ifs at hs' with hfree
  cases hs'
  exact .quiet <| .lockLog hfree hpc hrole hcopied

/-- Taking `ptable.lock` needs the lock to be free. -/
theorem effect_of_lockPtable {s s' : State P} {p : P} {c : Pc} (hs' : s.lockPtable p c = some s')
    (hpc : (s.role p).holdsPtable = false)
    (hrole : c.role = { s.role p with holdsPtable := true }) (hcopied : Copied s.lh c) :
    Effect s p s' := by
  unfold State.lockPtable at hs'
  split_ifs at hs' with hfree
  cases hs'
  exact .quiet <| .lockPtable hfree hpc hrole hcopied

/-- Every step of the code has one of these effects. -/
theorem effect_of_advance {log : LogArea} {s s' : State P} {p : P}
    (hs' : advance log s p = some s') : Effect s p s' := by
  have hrole : ∀ c, s.pc p = c → s.role p = c.role := fun c h => congrArg Pc.role h
  unfold advance at hs'
  cases hpc : s.pc p <;> simp only [hpc] at hs' <;> have hr := hrole _ hpc
  case beginAcquire | logAcquire | endAcquire =>
    exact effect_of_lockLog hs' (by rw [hr]; rfl) (by rw [hr]; rfl) fun _ => trivial
  case commitAcquire =>
    refine effect_of_lockLog hs' (by rw [hr]; rfl) (by rw [hr]; rfl) fun hempty => ?_
    rwa [hpc] at hempty
  case sleepAcquire | runnable | wakeAcquire =>
    exact effect_of_lockPtable hs' (by rw [hr]; rfl) (by rw [hr]; rfl) trivial
  case beginRelease | sleepUnlock | logRelease | endUnlock | commitUnlock =>
    cases hs'
    exact .quiet <| .unlockLog (by rw [hr]; rfl) (by rw [hr]; rfl) trivial
  case sleepSched | resumed | wakeRelease =>
    cases hs'
    exact .quiet <| .unlockPtable (by rw [hr]; rfl) (by rw [hr]; rfl) trivial
  case sleepMark =>
    cases hs'
    exact .quiet <| .move (by rw [hr]; rfl) fun _ => trivial
  case eraseHead =>
    cases hs'
    refine .quiet <| .move (by rw [hr]; rfl) fun hempty => ?_
    rwa [hpc] at hempty
  case beginTest =>
    split_ifs at hs' with hblocked
    · cases hs'
      exact .quiet <| .sleep hpc hblocked
    · cases hs'
      rw [not_or, Bool.not_eq_true] at hblocked
      exact .enter hpc hblocked.1 hblocked.2
  case logSize b =>
    split_ifs at hs' <;> cases hs'
    · exact .quiet <| .check hpc rfl trivial
    · exact .quiet <| .check hpc rfl trivial
  case logOutstanding b =>
    split_ifs at hs' <;> cases hs'
    · exact .quiet <| .move (by rw [hr]; rfl) fun _ => trivial
    · exact .quiet <| .move (by rw [hr]; rfl) fun _ => trivial
  case logAbsorb b =>
    cases hs'
    exact .absorb hpc
  case endBody =>
    split_ifs at hs' with hcommitting hlast <;> cases hs'
    · exact .leavePanic hpc hcommitting
    · exact .leaveCommit hpc (Bool.not_eq_true _ ▸ hcommitting) hlast
    · exact .leaveWake hpc (Bool.not_eq_true _ ▸ hcommitting) hlast
  case wakeBody =>
    cases hs'
    exact .quiet <| .wake hpc
  case commitTest =>
    cases hs'
    split_ifs with hsome
    · exact .quiet <| .move (by rw [hr]; rfl) fun _ => ⟨Nat.zero_le _, rfl⟩
    · exact .quiet <| .move (by rw [hr]; rfl) fun _ => Nat.eq_zero_of_not_pos hsome
  case writeLog tail copied =>
    cases hs'
    split_ifs with htail
    · refine .quiet <| .move (by rw [hr]; rfl) fun hcopied => ?_
      rw [hpc] at hcopied
      obtain ⟨-, rfl⟩ := hcopied
      exact ⟨htail, by rw [List.range_succ, List.map_append]; rfl⟩
    · refine .quiet <| .move (by rw [hr]; rfl) fun hcopied => ?_
      rw [hpc] at hcopied
      obtain ⟨hle, rfl⟩ := hcopied
      have hall : tail = s.lh.n := by omega
      rw [hall]
      rfl
  case writeHead copied =>
    cases hs'
    exact .writeHead hpc
  case installTrans tail =>
    cases hs'
    split_ifs
    · exact .quiet <| .move (by rw [hr]; rfl) fun _ => trivial
    · exact .quiet <| .move (by rw [hr]; rfl) fun _ => trivial
  case clear =>
    cases hs'
    exact .clear hpc
  case commitEnd =>
    cases hs'
    exact .commitEnd hpc
  all_goals cases hs'

/-- Every step has one of these effects on the process that takes it. -/
theorem effect_of_step {log : LogArea} {s s' : State P} {a : Action P}
    (hs' : step log s a = some s') : ∃ p, Effect s p s' := by
  cases a with
  | beginOp p =>
    rw [step] at hs'
    split_ifs at hs' with hpc
    cases hs'
    exact ⟨p, .quiet <| .move (by rw [State.role, hpc]; rfl) fun _ => trivial⟩
  | logWrite p b =>
    rw [step] at hs'
    split_ifs at hs' with hpc
    cases hs'
    exact ⟨p, .quiet <| .move (by rw [State.role, hpc]; rfl) fun _ => trivial⟩
  | endOp p =>
    rw [step] at hs'
    split_ifs at hs' with hpc
    cases hs'
    exact ⟨p, .quiet <| .move (by rw [State.role, hpc]; rfl) fun _ => trivial⟩
  | advance p => exact ⟨p, effect_of_advance hs'⟩
  | kill p =>
    rw [step] at hs'
    split_ifs at hs' with hpc
    cases hs'
    exact ⟨p, .quiet <| .kill hpc.1⟩

/-! ## The locks -/

/-- A lock is held by the process that is in its critical section, and by no other. -/
def Owned (lock : Option P) (holds : P → Bool) : Prop := ∀ q, lock = some q ↔ holds q = true

omit [DecidableEq P] in
theorem Owned.congr {lock : Option P} {holds holds' : P → Bool} (howned : Owned lock holds)
    (hsame : ∀ q, holds' q = holds q) : Owned lock holds' := by
  intro q
  rw [hsame]
  exact howned q

/-- A process takes a free lock. -/
theorem Owned.acquire {p : P} {holds holds' : P → Bool} (howned : Owned none holds)
    (hp : holds' p = true) (hother : ∀ q, q ≠ p → holds' q = holds q) :
    Owned (some p) holds' := by
  intro q
  by_cases hq : q = p
  · simp [hq, hp]
  · have hfree := howned q
    rw [hother q hq]
    simp only [reduceCtorEq, false_iff] at hfree
    simpa [hfree] using Ne.symm hq

/-- The holder releases the lock. -/
theorem Owned.release {p : P} {lock : Option P} {holds holds' : P → Bool}
    (howned : Owned lock holds) (hp : holds p = true) (hp' : holds' p = false)
    (hother : ∀ q, q ≠ p → holds' q = holds q) : Owned none holds' := by
  intro q
  by_cases hq : q = p
  · simp [hq, hp']
  · have hlock : lock = some p := (howned p).mpr hp
    have hfree := howned q
    rw [hother q hq, ← hfree, hlock]
    simpa using Ne.symm hq

/-- Both locks are held as the places of the processes say. -/
structure Locks (s : State P) : Prop where
  /-- `log.lock`. -/
  log : Owned s.logLock fun q => (s.role q).holdsLog
  /-- `ptable.lock`. -/
  ptable : Owned s.ptableLock fun q => (s.role q).holdsPtable

/-- The part of a role that the locks depend on. -/
def Role.locks (r : Role) : Bool × Bool := (r.holdsLog, r.holdsPtable)

/-- The part of a role that the fields of `log` depend on. -/
def Role.counts (r : Role) : Bool × Bool × Bool := (r.inOp, r.committing, r.installing)

/-- If one process moves and keeps a part of its role, every process keeps that part. -/
theorem role_frame {α : Type*} (f : Role → α) {s s₁ : State P} {p : P} {c : Pc}
    (hpc : s₁.pc = s.pc) (hf : f c.role = f (s.role p)) (q : P) :
    f ((s₁.goto p c).role q) = f (s.role q) := by
  rw [State.role_goto]
  split_ifs with hq
  · rw [hq, hf]
  · rw [State.role, hpc]
    rfl

/-- The role of the process that moves. -/
@[simp] theorem role_goto_self (s : State P) (p : P) (c : Pc) : (s.goto p c).role p = c.role := by
  simp

/-- The roles of the other processes. -/
theorem role_goto_of_ne {s s₁ : State P} {p : P} (c : Pc) (hpc : s₁.pc = s.pc) (q : P)
    (hq : q ≠ p) : (s₁.goto p c).role q = s.role q := by
  rw [State.role_goto, if_neg hq, State.role, hpc]
  rfl

/-- The role of a process after a wakeup: a sleeper is woken, and nothing else changes. -/
theorem role_wake {s : State P} {p : P} (hpc : s.pc p = .wakeBody) (q : P) :
    (State.goto { s with pc := fun q => if s.pc q = .asleep then .runnable else s.pc q } p
      .wakeRelease).role q =
      if q = p then { s.role q with waking := false }
      else if s.pc q = .asleep then { s.role q with sleeping := false } else s.role q := by
  rw [State.role_goto]
  split_ifs with hq hasleep
  · rw [hq, State.role, hpc]
    rfl
  · simp only [State.role, hasleep, if_true]
    rfl
  · simp only [State.role, hasleep, if_false]

omit [DecidableEq P] in
/-- Steps that leave the locks and the roles of holders alone. -/
theorem Locks.frame {s s' : State P} (hlocks : Locks s) (hlog : s'.logLock = s.logLock)
    (hptable : s'.ptableLock = s.ptableLock)
    (hrole : ∀ q, (s'.role q).locks = (s.role q).locks) : Locks s' := by
  refine ⟨?_, ?_⟩
  · rw [hlog]
    exact hlocks.log.congr fun q => congrArg Prod.fst (hrole q)
  · rw [hptable]
    exact hlocks.ptable.congr fun q => congrArg Prod.snd (hrole q)

/-- Quiet steps keep both locks consistent with the places. -/
theorem Locks.quiet {s s' : State P} {p : P} (hlocks : Locks s) (hquiet : Quiet s p s') :
    Locks s' := by
  cases hquiet with
  | move hrole _ => exact hlocks.frame rfl rfl (role_frame _ rfl (by rw [hrole]))
  | check hpc hc _ =>
    exact hlocks.frame rfl rfl (role_frame _ rfl (by rw [hc, State.role, hpc]; rfl))
  | @lockLog c hfree hpc hrole _ =>
    have hlog : Owned none fun q => (s.role q).holdsLog := hfree ▸ hlocks.log
    constructor
    · apply hlog.acquire
      · simp [hrole]
      · intro q hq
        rw [State.role_goto, if_neg hq]
        rfl
    · exact hlocks.ptable.congr (role_frame Role.holdsPtable rfl (by rw [hrole]))
  | @unlockLog c hpc hrole _ =>
    constructor
    · apply hlocks.log.release hpc
      · simp [State.unlockLog, hrole]
      · intro q hq
        rw [State.unlockLog, State.role_goto, if_neg hq]
        rfl
    · exact hlocks.ptable.congr (role_frame Role.holdsPtable rfl (by rw [hrole]))
  | @lockPtable c hfree hpc hrole _ =>
    have hptable : Owned none fun q => (s.role q).holdsPtable := hfree ▸ hlocks.ptable
    constructor
    · exact hlocks.log.congr (role_frame Role.holdsLog rfl (by rw [hrole]))
    · apply hptable.acquire
      · simp [hrole]
      · intro q hq
        rw [State.role_goto, if_neg hq]
        rfl
  | @unlockPtable c hpc hrole _ =>
    constructor
    · exact hlocks.log.congr (role_frame Role.holdsLog rfl (by rw [hrole]))
    · apply hlocks.ptable.release hpc
      · simp [State.unlockPtable, hrole]
      · intro q hq
        rw [State.unlockPtable, State.role_goto, if_neg hq]
        rfl
  | wake hpc =>
    refine hlocks.frame rfl rfl fun q => ?_
    rw [role_wake hpc]
    split_ifs <;> rfl
  | sleep hpc | kill hpc =>
    exact hlocks.frame rfl rfl (role_frame _ rfl (by rw [State.role, hpc]; rfl))

/-- Every step keeps both locks consistent with the places. -/
theorem Locks.step {s s' : State P} {p : P} (hlocks : Locks s) (heffect : Effect s p s') :
    Locks s' := by
  cases heffect with
  | quiet hquiet => exact hlocks.quiet hquiet
  | enter hpc | absorb hpc | leavePanic hpc | leaveCommit hpc | leaveWake hpc | writeHead hpc
  | clear hpc | commitEnd hpc =>
    exact hlocks.frame rfl rfl (role_frame _ rfl (by rw [State.role, hpc]; rfl))

/-! ## Admission -/

/-- The fields of `log` are as they were, and no process changes its part in them. -/
structure Frame (s s' : State P) : Prop where
  /-- The header. -/
  lh : s'.lh = s.lh
  /-- The number of operations. -/
  outstanding : s'.outstanding = s.outstanding
  /-- The commit flag. -/
  committing : s'.committing = s.committing
  /-- The parts of the processes. -/
  counts : ∀ q, (s'.role q).counts = (s.role q).counts
  /-- The history, but for tests of the size. -/
  history : s'.history = s.history ∨ ∃ p, s'.history = .check p :: s.history
  /-- What commits have copied. -/
  copied : (∀ q, Copied s.lh (s.pc q)) → ∀ q, Copied s.lh (s'.pc q)

/-- If one process moves to a place with nothing copied, what the others have copied stays. -/
theorem copied_goto {s s₁ : State P} {p : P} {c : Pc} (hpc : s₁.pc = s.pc)
    (hc : Copied s.lh (s.pc p) → Copied s.lh c) (hcopied : ∀ q, Copied s.lh (s.pc q)) (q : P) :
    Copied s.lh ((s₁.goto p c).pc q) := by
  simp only [State.goto, hpc]
  split_ifs
  · exact hc (hcopied p)
  · exact hcopied q

/-- Quiet steps leave the fields of `log` and the parts of the processes alone. -/
theorem Quiet.frame {s s' : State P} {p : P} (hquiet : Quiet s p s') : Frame s s' := by
  cases hquiet with
  | move hrole hcopied =>
    exact ⟨rfl, rfl, rfl, role_frame _ rfl (by rw [hrole]), .inl rfl, copied_goto rfl hcopied⟩
  | check hpc hc hcopied =>
    exact ⟨rfl, rfl, rfl, role_frame _ rfl (by rw [hc, State.role, hpc]; rfl), .inr ⟨p, rfl⟩,
      copied_goto rfl fun _ => hcopied⟩
  | lockLog _ _ hrole hcopied =>
    exact ⟨rfl, rfl, rfl, role_frame _ rfl (by rw [hrole]; rfl), .inl rfl,
      copied_goto rfl hcopied⟩
  | unlockLog _ hrole hcopied | lockPtable _ _ hrole hcopied | unlockPtable _ hrole hcopied =>
    exact ⟨rfl, rfl, rfl, role_frame _ rfl (by rw [hrole]; rfl), .inl rfl,
      copied_goto rfl fun _ => hcopied⟩
  | sleep hpc | kill hpc =>
    exact ⟨rfl, rfl, rfl, role_frame _ rfl (by rw [State.role, hpc]; rfl), .inl rfl,
      copied_goto rfl fun _ => trivial⟩
  | wake hpc =>
    refine ⟨rfl, rfl, rfl, fun q => ?_, .inl rfl, fun hcopied q => ?_⟩
    · rw [role_wake hpc]
      split_ifs <;> rfl
    · simp only [State.goto]
      split_ifs
      · trivial
      · trivial
      · exact hcopied q

section

variable [Fintype P]

/-- `log.outstanding` counts the operations, a commit runs only without any, and at most one
process commits. -/
structure Admission (s : State P) : Prop where
  /-- `log.outstanding` is the number of processes between `begin_op` and `end_op`. -/
  count : s.outstanding = (Finset.univ.filter fun q => (s.role q).inOp = true).card
  /-- No operation runs during a commit. -/
  idle : s.committing = true → s.outstanding = 0
  /-- A process that commits has set the flag. -/
  flag : ∀ q, (s.role q).committing = true → s.committing = true
  /-- At most one process commits. -/
  unique : ∀ q q', (s.role q).committing = true → (s.role q').committing = true → q = q'

omit [DecidableEq P] in
/-- Without operations no process is in one. -/
theorem Admission.not_inOp {s : State P} (hadm : Admission s) (hnone : s.outstanding = 0) (q : P) :
    (s.role q).inOp = false := by
  by_contra hq
  have hmem : q ∈ Finset.univ.filter fun q => (s.role q).inOp = true := by simpa using hq
  have hpos := Finset.card_pos.mpr ⟨q, hmem⟩
  have hcount := hadm.count
  omega

omit [DecidableEq P] in
/-- While a process is in an operation, no commit runs. -/
theorem Admission.not_committing {s : State P} (hadm : Admission s) {q : P}
    (hq : (s.role q).inOp = true) : s.committing = false := by
  by_contra hcommitting
  rw [Bool.not_eq_false] at hcommitting
  simp [hadm.not_inOp (hadm.idle hcommitting) q] at hq

/-- One more process in a predicate counts one more. -/
theorem card_filter_succ {f g : P → Bool} {p : P} (hf : f p = false) (hg : g p = true)
    (hother : ∀ q, q ≠ p → g q = f q) :
    (Finset.univ.filter fun q => g q = true).card =
      (Finset.univ.filter fun q => f q = true).card + 1 := by
  have hinsert : (Finset.univ.filter fun q => g q = true) =
      insert p (Finset.univ.filter fun q => f q = true) := by
    ext q
    by_cases hq : q = p
    · simp [hq, hg]
    · simp [hq, hother q hq]
  rw [hinsert, Finset.card_insert_of_notMem (by simp [hf])]

omit [DecidableEq P] in
/-- Steps that leave the fields and the parts of the processes in them alone. -/
theorem Admission.frame {s s' : State P} (hadm : Admission s)
    (houtstanding : s'.outstanding = s.outstanding) (hcommitting : s'.committing = s.committing)
    (hrole : ∀ q, (s'.role q).inOp = (s.role q).inOp ∧
      (s'.role q).committing = (s.role q).committing) : Admission s' := by
  constructor
  · rw [houtstanding, hadm.count]
    simp only [fun q => (hrole q).1]
  · rw [houtstanding, hcommitting]
    exact hadm.idle
  · intro q hq
    rw [hcommitting]
    exact hadm.flag q ((hrole q).2 ▸ hq)
  · intro q q' hq hq'
    exact hadm.unique q q' ((hrole q).2 ▸ hq) ((hrole q').2 ▸ hq')

/-- Steps in which one process stays as it is in the fields of `log`. -/
theorem Admission.frame_goto {s s₁ : State P} {p : P} {c : Pc} (hadm : Admission s)
    (hpc : s₁.pc = s.pc) (houtstanding : s₁.outstanding = s.outstanding)
    (hcommitting : s₁.committing = s.committing) (hinOp : c.role.inOp = (s.role p).inOp)
    (hrole : c.role.committing = (s.role p).committing) : Admission (s₁.goto p c) :=
  hadm.frame houtstanding hcommitting fun q =>
    ⟨role_frame Role.inOp hpc hinOp q, role_frame Role.committing hpc hrole q⟩

omit [DecidableEq P] in
/-- During a step without a commit no process commits. -/
theorem Admission.none_commits {s : State P} (hadm : Admission s)
    (hcommitting : s.committing = false) (q : P) : (s.role q).committing = false := by
  by_contra hq
  rw [Bool.not_eq_false] at hq
  simp [hadm.flag q hq] at hcommitting

/-- An operation is admitted only while no commit runs. -/
theorem Admission.enter {s s' : State P} {p : P} (hadm : Admission s)
    (hcommitting : s.committing = false) (hp : (s.role p).inOp = false)
    (hp' : s'.role p = { holdsLog := true, inOp := true })
    (hother : ∀ q, q ≠ p → s'.role q = s.role q)
    (houtstanding : s'.outstanding = s.outstanding + 1) (hflag : s'.committing = s.committing) :
    Admission s' := by
  have hnone : ∀ q, (s'.role q).committing = false := by
    intro q
    by_cases hq : q = p
    · rw [hq, hp']
    · rw [hother q hq]
      exact hadm.none_commits hcommitting q
  constructor
  · have hcard := card_filter_succ (f := fun q => (s.role q).inOp) (g := fun q => (s'.role q).inOp)
      hp (by rw [hp']) fun q hq => by rw [hother q hq]
    rw [hcard, houtstanding, hadm.count]
    push_cast
    rfl
  · intro h
    rw [hflag, hcommitting] at h
    cases h
  · intro q hq
    simp [hnone q] at hq
  · intro q q' hq
    simp [hnone q] at hq

/-- An operation ends; if it starts a commit, it was the last one. -/
theorem Admission.leave {s s' : State P} {p : P} (hadm : Admission s)
    (hcommitting : s.committing = false) (hp : (s.role p).inOp = true)
    (hp' : (s'.role p).inOp = false) (hother : ∀ q, q ≠ p → s'.role q = s.role q)
    (houtstanding : s'.outstanding = s.outstanding - 1)
    (hflag : (s'.role p).committing = true → s'.committing = true)
    (hlast : s'.committing = true → s'.outstanding = 0) : Admission s' := by
  have hnew : ∀ q, (s'.role q).committing = true → q = p := by
    intro q hq
    by_contra hne
    rw [hother q hne, hadm.none_commits hcommitting q] at hq
    cases hq
  constructor
  · have hcard := card_filter_succ (f := fun q => (s'.role q).inOp) (g := fun q => (s.role q).inOp)
      hp' hp fun q hq => by rw [hother q hq]
    have hcount := hadm.count
    rw [hcard] at hcount
    push_cast at hcount
    omega
  · exact hlast
  · intro q hq
    exact hflag (hnew q hq ▸ hq)
  · intro q q' hq hq'
    rw [hnew q hq, hnew q' hq']

omit [DecidableEq P] in
/-- The process that commits clears the flag. -/
theorem Admission.commitEnd {s s' : State P} {p : P} (hadm : Admission s)
    (hp : (s.role p).committing = true) (hp' : (s'.role p).committing = false)
    (hinOp : ∀ q, (s'.role q).inOp = (s.role q).inOp)
    (hother : ∀ q, q ≠ p → s'.role q = s.role q)
    (houtstanding : s'.outstanding = s.outstanding) (hflag : s'.committing = false) :
    Admission s' := by
  have hnone : ∀ q, (s'.role q).committing = false := by
    intro q
    by_cases hq : q = p
    · rw [hq, hp']
    · by_contra hcommitting
      rw [hother q hq, Bool.not_eq_false] at hcommitting
      exact hq (hadm.unique q p hcommitting hp)
  constructor
  · rw [houtstanding, hadm.count]
    simp only [hinOp]
  · intro h
    rw [hflag] at h
    cases h
  · intro q hq
    simp [hnone q] at hq
  · intro q q' hq
    simp [hnone q] at hq

/-- Every step keeps the invariant of admission. -/
theorem Admission.step {s s' : State P} {p : P} (hadm : Admission s) (heffect : Effect s p s') :
    Admission s' := by
  cases heffect with
  | quiet hquiet =>
    have hframe := hquiet.frame
    refine hadm.frame hframe.outstanding hframe.committing fun q => ?_
    have hcounts := hframe.counts q
    simp only [Role.counts, Prod.mk.injEq] at hcounts
    exact ⟨hcounts.1, hcounts.2.1⟩
  | enter hpc hcommitting hroom =>
    have hp : (s.role p).inOp = false := by rw [State.role, hpc]; rfl
    exact hadm.enter hcommitting hp (role_goto_self _ _ _) (role_goto_of_ne _ rfl) rfl rfl
  | absorb hpc | writeHead hpc | clear hpc =>
    exact hadm.frame_goto rfl rfl rfl (by rw [State.role, hpc]; rfl) (by rw [State.role, hpc]; rfl)
  | leavePanic hpc hcommitting =>
    have hp : (s.role p).inOp = true := by rw [State.role, hpc]; rfl
    simp [hadm.not_committing hp] at hcommitting
  | leaveCommit hpc hcommitting hlast =>
    have hp : (s.role p).inOp = true := by rw [State.role, hpc]; rfl
    exact hadm.leave hcommitting hp (by rw [role_goto_self]; rfl) (role_goto_of_ne _ rfl) rfl
      (fun _ => rfl) fun _ => hlast
  | leaveWake hpc hcommitting =>
    have hp : (s.role p).inOp = true := by rw [State.role, hpc]; rfl
    refine hadm.leave hcommitting hp (by rw [role_goto_self]; rfl) (role_goto_of_ne _ rfl) rfl
      (fun h => ?_) fun h => ?_
    · rw [role_goto_self] at h
      cases h
    · exact absurd (hcommitting.symm.trans h) Bool.false_ne_true
  | commitEnd hpc =>
    have hp : (s.role p).committing = true := by rw [State.role, hpc]; rfl
    refine hadm.commitEnd hp (by rw [role_goto_self]; rfl) (role_frame Role.inOp rfl ?_)
      (role_goto_of_ne _ rfl) rfl rfl
    rw [State.role, hpc]
    rfl

end

/-! ## Sleepers -/

/-- What a process in `begin_op` waits for has not come. -/
def State.Blocked (s : State P) : Prop := s.committing = true ∨ s.NoRoom

/-- Every process that has decided to sleep has a reason to, or is about to be woken. -/
def Sleepers (s : State P) : Prop :=
  ∀ q, (s.role q).sleeping = true → s.Blocked ∨ ∃ w, (s.role w).waking = true

omit [DecidableEq P] in
/-- Steps after which no new process sleeps, the reasons remain and no waker is lost. -/
theorem Sleepers.frame {s s' : State P} (hsleepers : Sleepers s)
    (hblocked : s.Blocked → s'.Blocked)
    (hsleeping : ∀ q, (s'.role q).sleeping = true → (s.role q).sleeping = true)
    (hwaking : ∀ q, (s'.role q).waking = (s.role q).waking) : Sleepers s' := by
  intro q hq
  rcases hsleepers q (hsleeping q hq) with h | ⟨w, hw⟩
  · exact .inl (hblocked h)
  · exact .inr ⟨w, (hwaking w).trans hw⟩

/-- The part of a role that the sleepers depend on. -/
def Role.rest (r : Role) : Bool × Bool := (r.sleeping, r.waking)

/-- Steps of one process that keeps its part in sleeping and waking. -/
theorem Sleepers.frame_goto {s s₁ : State P} {p : P} {c : Pc} (hsleepers : Sleepers s)
    (hpc : s₁.pc = s.pc) (hblocked : s.Blocked → s₁.Blocked)
    (hrole : c.role.rest = (s.role p).rest) : Sleepers (s₁.goto p c) := by
  have hrest := role_frame Role.rest hpc hrole
  refine hsleepers.frame hblocked (fun q hq => ?_) fun q => congrArg Prod.snd (hrest q)
  rw [← hq]
  exact (congrArg Prod.fst (hrest q)).symm

omit [DecidableEq P] in
/-- The only sleepers that hold no lock are in state `SLEEPING`. -/
theorem asleep_of_sleeping {s : State P} {q : P} (hsleeping : (s.role q).sleeping = true)
    (hlog : (s.role q).holdsLog = false) (hptable : (s.role q).holdsPtable = false) :
    s.pc q = .asleep := by
  unfold State.role at hsleeping hlog hptable
  cases hpc : s.pc q <;> simp [hpc, Pc.role] at hsleeping hlog hptable ⊢

/-- Quiet steps keep the sleepers blocked. -/
theorem Sleepers.quiet {s s' : State P} {p : P} (hsleepers : Sleepers s) (hlocks : Locks s)
    (hquiet : Quiet s p s') : Sleepers s' := by
  cases hquiet with
  | move hrole _ => exact hsleepers.frame_goto rfl id (by rw [hrole])
  | check hpc hc _ =>
    exact hsleepers.frame_goto rfl id (by rw [hc, State.role, hpc]; rfl)
  | lockLog _ _ hrole _ | unlockLog _ hrole _ | lockPtable _ _ hrole _ | unlockPtable _ hrole _ =>
    exact hsleepers.frame_goto rfl id (by rw [hrole]; rfl)
  | sleep hpc hblocked => exact fun q _ => .inl hblocked
  | kill hpc =>
    refine hsleepers.frame id (fun q hq => ?_) (role_frame Role.waking rfl ?_)
    · rw [State.role_goto] at hq
      split_ifs at hq
      · cases hq
      · exact hq
    · rw [State.role, hpc]
      rfl
  | wake hpc =>
    -- the waker holds both locks, so every sleeper is `SLEEPING`, and all of those are woken
    have hp : s.role p = { holdsLog := true, holdsPtable := true, waking := true } := by
      rw [State.role, hpc]
      rfl
    have hlog := (hlocks.log p).mpr (congrArg Role.holdsLog hp)
    have hptable := (hlocks.ptable p).mpr (congrArg Role.holdsPtable hp)
    intro q hq
    rw [role_wake hpc] at hq
    split_ifs at hq with hqp hasleep
    · have hsleeping : (s.role q).sleeping = true := hq
      rw [hqp, hp] at hsleeping
      cases hsleeping
    · refine absurd (asleep_of_sleeping hq ?_ ?_) hasleep
      · by_contra hholds
        have hq' := (hlocks.log q).mpr (Bool.not_eq_false _ ▸ hholds)
        exact hqp (Option.some.inj (hq'.symm.trans hlog))
      · by_contra hholds
        have hq' := (hlocks.ptable q).mpr (Bool.not_eq_false _ ▸ hholds)
        exact hqp (Option.some.inj (hq'.symm.trans hptable))

/-- Every step keeps the sleepers blocked or about to be woken. -/
theorem Sleepers.step [Fintype P] {s s' : State P} {p : P} (hsleepers : Sleepers s)
    (hlocks : Locks s) (hadm : Admission s) (heffect : Effect s p s') : Sleepers s' := by
  cases heffect with
  | quiet hquiet => exact hsleepers.quiet hlocks hquiet
  | enter hpc hcommitting hroom =>
    refine hsleepers.frame_goto rfl (fun h => ?_) (by rw [State.role, hpc]; rfl)
    rcases h with h | h
    · simp [hcommitting] at h
    · exact absurd h hroom
  | @absorb b hpc =>
    refine hsleepers.frame_goto rfl (fun h => h.imp_right fun h => ?_)
      (by rw [State.role, hpc]; rfl)
    have hgrow : s.lh.n ≤ (s.lh.absorb b).n := by
      simp only [LogHeader.absorb]
      split_ifs <;> omega
    simp only [State.NoRoom, State.record] at h ⊢
    omega
  | leavePanic hpc hcommitting => exact fun q _ => .inl (.inl hcommitting)
  | leaveCommit hpc hcommitting hlast => exact fun q _ => .inl (.inl rfl)
  | leaveWake hpc hcommitting =>
    exact fun q _ => .inr ⟨p, by rw [role_goto_self]; rfl⟩
  | writeHead hpc => exact hsleepers.frame_goto rfl id (by rw [State.role, hpc]; rfl)
  | clear hpc =>
    have hflag := hadm.flag p (by rw [State.role, hpc]; rfl)
    exact fun q _ => .inl (.inl hflag)
  | commitEnd hpc => exact fun q _ => .inr ⟨p, by rw [role_goto_self]; rfl⟩

/-! ## The logged blocks -/

/-- The blocks logged since the last commit wrote its header. -/
def windowBlocks : List (Event P) → Finset ℕ
  | [] => ∅
  | .commit _ _ _ :: _ => ∅
  | .logged _ b :: history => insert b (windowBlocks history)
  | _ :: history => windowBlocks history

/-- The header in memory holds what was logged since the last commit, each block once; a
commit whose header is on the disk has nothing to add to the next one. -/
structure Content (s : State P) : Prop where
  /-- No block is logged twice. -/
  nodup : s.lh.blocks.Nodup
  /-- The header holds what was logged, up to the write of the header. -/
  window : (∀ q, (s.role q).installing = false) →
    ∀ b, b ∈ s.lh.blocks ↔ b ∈ windowBlocks s.history
  /-- Nothing is logged during the rest of the commit. -/
  emptied : ∀ q, (s.role q).installing = true → windowBlocks s.history = ∅
  /-- `write_log` copies the blocks of the header. -/
  copied : ∀ q, Copied s.lh (s.pc q)

omit [DecidableEq P] in
/-- Steps that log nothing. -/
theorem Content.frame {s s' : State P} (hcontent : Content s) (hlh : s'.lh = s.lh)
    (hwindow : windowBlocks s'.history = windowBlocks s.history)
    (hrole : ∀ q, (s'.role q).installing = (s.role q).installing)
    (hcopied : ∀ q, Copied s.lh (s'.pc q)) : Content s' := by
  constructor
  · rw [hlh]
    exact hcontent.nodup
  · intro hnone b
    rw [hlh, hwindow]
    exact hcontent.window (fun q => (hrole q).symm.trans (hnone q)) b
  · intro q hq
    rw [hwindow]
    exact hcontent.emptied q ((hrole q).symm.trans hq)
  · rw [hlh]
    exact hcopied

/-- Steps of one process that log nothing. -/
theorem Content.frame_goto {s s₁ : State P} {p : P} {c : Pc} (hcontent : Content s)
    (hpc : s₁.pc = s.pc) (hlh : s₁.lh = s.lh)
    (hwindow : windowBlocks s₁.history = windowBlocks s.history)
    (hrole : c.role.installing = (s.role p).installing) (hcopied : Copied s.lh c) :
    Content (s₁.goto p c) :=
  hcontent.frame hlh hwindow (role_frame Role.installing hpc hrole)
    (copied_goto hpc (fun _ => hcopied) hcontent.copied)

/-- Only a process that commits installs blocks or has copied any. -/
theorem Pc.of_not_committing {c : Pc} (hc : c.role.committing = false) (lh : LogHeader) :
    c.role.installing = false ∧ Copied lh c := by
  cases c <;> first | exact ⟨rfl, trivial⟩ | cases hc

/-- Every step keeps the description of the header. -/
theorem Content.step [Fintype P] {s s' : State P} {p : P} (hcontent : Content s)
    (hadm : Admission s) (heffect : Effect s p s') : Content s' := by
  cases heffect with
  | quiet hquiet =>
    have hframe := hquiet.frame
    refine hcontent.frame hframe.lh ?_ (fun q => ?_) (hframe.copied hcontent.copied)
    · rcases hframe.history with h | ⟨p', h⟩ <;> rw [h]
      rfl
    · have hcounts := hframe.counts q
      simp only [Role.counts, Prod.mk.injEq] at hcounts
      exact hcounts.2.2
  | enter hpc | leavePanic hpc | leaveCommit hpc | leaveWake hpc | commitEnd hpc =>
    exact hcontent.frame_goto rfl rfl rfl (by rw [State.role, hpc]; rfl) trivial
  | @absorb b hpc =>
    have hinOp : (s.role p).inOp = true := by rw [State.role, hpc]; rfl
    have hnone := hadm.none_commits (hadm.not_committing hinOp)
    have hidle : ∀ q, (s.role q).installing = false := fun q =>
      (Pc.of_not_committing (hnone q) s.lh).1
    have hrole : ∀ q, ((({ s with lh := s.lh.absorb b }.record (.logged p b)).goto p
        .logRelease).role q).committing = (s.role q).committing :=
      role_frame (s := s) Role.committing rfl (by rw [State.role, hpc]; rfl)
    constructor
    · exact LogHeader.nodup_absorb hcontent.nodup b
    · intro _ b'
      have hold := hcontent.window hidle b'
      simp only [State.goto, State.record, windowBlocks, Finset.mem_insert,
        LogHeader.mem_blocks_absorb, hold]
    · intro q hq
      have hnot := (Pc.of_not_committing ((hrole q).trans (hnone q)) s.lh).1
      exact absurd hq (by rw [State.role, hnot]; exact Bool.false_ne_true)
    · intro q
      exact (Pc.of_not_committing ((hrole q).trans (hnone q)) _).2
  | @writeHead copied hpc =>
    constructor
    · exact hcontent.nodup
    · intro hnone
      have hp := hnone p
      rw [role_goto_self] at hp
      cases hp
    · intro q _
      rfl
    · exact copied_goto (s := s) rfl (fun _ => trivial) hcontent.copied
  | clear hpc =>
    have hp : (s.role p).committing = true := by rw [State.role, hpc]; rfl
    have hinstalling : (s.role p).installing = true := by rw [State.role, hpc]; rfl
    have hempty := hcontent.emptied p hinstalling
    constructor
    · exact List.nodup_nil
    · intro _ b
      simp [State.goto, LogHeader.blocks, hempty]
    · intro q _
      exact hempty
    · intro q
      by_cases hq : q = p
      · simp only [State.goto, if_pos hq]
        rfl
      · have hnot : (s.role q).committing = false := by
          by_contra hcommitting
          exact hq (hadm.unique q p (Bool.not_eq_false _ ▸ hcommitting) hp)
        simp only [State.goto, if_neg hq]
        exact (Pc.of_not_committing hnot _).2

/-- Between commits, with no operation under way, the header is empty: whatever has been logged is
committed before the next operation starts. -/
def Settled (s : State P) : Prop := s.outstanding = 0 → s.committing = false → s.lh.n = 0

/-- Every step keeps the header from being left over. -/
theorem Settled.step [Fintype P] {s s' : State P} {p : P} (hsettled : Settled s)
    (hadm : Admission s) (hcontent : Content s) (heffect : Effect s p s') : Settled s' := by
  have hcount := hadm.count
  cases heffect with
  | quiet hquiet =>
    have hframe := hquiet.frame
    rw [Settled, hframe.outstanding, hframe.committing, hframe.lh]
    exact hsettled
  | enter hpc hcommitting hroom =>
    intro hnone
    have hone : s.outstanding + 1 = 0 := hnone
    omega
  | absorb hpc =>
    intro hnone
    have hinOp : (s.role p).inOp = true := by rw [State.role, hpc]; rfl
    rw [hadm.not_inOp hnone p] at hinOp
    cases hinOp
  | leavePanic hpc hcommitting =>
    intro _ hidle
    exact absurd (hcommitting.symm.trans hidle) Bool.true_eq_false.mp
  | leaveCommit hpc hcommitting hlast =>
    intro _ hidle
    cases hidle
  | leaveWake hpc hcommitting hmore =>
    intro hnone
    exact absurd hnone hmore
  | writeHead hpc =>
    intro _ hidle
    have hflag := hadm.flag p (by rw [State.role, hpc]; rfl)
    exact absurd (hflag.symm.trans hidle) Bool.true_eq_false.mp
  | clear hpc => exact fun _ _ => rfl
  | commitEnd hpc =>
    intro _ _
    have hempty := hcontent.copied p
    rwa [hpc] at hempty

/-! ## Whole operations -/

/-- The event of a commit. -/
def Event.IsCommit : Event P → Prop
  | .commit _ _ _ => True
  | _ => False

/-- Operations are committed as a whole: every commit copies the blocks it names in its
header, and an operation that started before a commit, with no other commit in between, has
ended by then, and all blocks that it logged are in that commit. -/
structure OperationsWhole (history : List (Event P)) : Prop where
  /-- The header names what was copied to the log. -/
  copied : ∀ q copied header, .commit q copied header ∈ history → copied = header
  /-- The first commit after the start of an operation has it all. -/
  whole : ∀ after q copied header since p before,
    history = after ++ .commit q copied header :: (since ++ .enter p :: before) →
    (∀ e ∈ since, ¬ e.IsCommit) →
      .leave p ∈ since ∧ ∀ b, .logged p b ∈ since → b ∈ header
  /-- The first commit after a block has been logged writes it. -/
  logged : ∀ after q copied header since p b before,
    history = after ++ .commit q copied header :: (since ++ .logged p b :: before) →
    (∀ e ∈ since, ¬ e.IsCommit) → b ∈ header

/-- An operation that was counted has ended or is still counted. -/
def Entered (history : List (Event P)) (inOp : P → Bool) : Prop :=
  ∀ later p earlier, history = later ++ .enter p :: earlier →
    .leave p ∈ later ∨ inOp p = true

omit [DecidableEq P] in
/-- A further event keeps track of the operations. -/
theorem Entered.cons {history : List (Event P)} {inOp inOp' : P → Bool}
    (hentered : Entered history inOp) {e : Event P}
    (henter : ∀ p, e = .enter p → inOp' p = true)
    (hkeep : ∀ p, inOp p = true → inOp' p = true ∨ e = .leave p) :
    Entered (e :: history) inOp' := by
  intro later p earlier hsplit
  cases later with
  | nil =>
    obtain ⟨he, -⟩ := List.cons.inj hsplit
    exact .inr (henter p he)
  | cons e' later =>
    obtain ⟨rfl, hrest⟩ := List.cons.inj hsplit
    rcases hentered later p earlier hrest with hleft | hin
    · exact .inl (List.mem_cons_of_mem _ hleft)
    · rcases hkeep p hin with h | rfl
      · exact .inr h
      · exact .inl List.mem_cons_self

omit [DecidableEq P] in
/-- Events other than commits split no operation. -/
theorem OperationsWhole.cons {history : List (Event P)} (hwhole : OperationsWhole history)
    {e : Event P} (he : ¬ e.IsCommit) : OperationsWhole (e :: history) := by
  constructor
  · intro q copied header hmem
    rcases List.mem_cons.mp hmem with rfl | hmem
    · exact absurd trivial he
    · exact hwhole.copied q copied header hmem
  · intro after q copied header since p before hsplit
    cases after with
    | nil =>
      obtain ⟨rfl, -⟩ := List.cons.inj hsplit
      exact absurd trivial he
    | cons e' after =>
      exact hwhole.whole after q copied header since p before (List.cons.inj hsplit).2
  · intro after q copied header since p b before hsplit
    cases after with
    | nil =>
      obtain ⟨rfl, -⟩ := List.cons.inj hsplit
      exact absurd trivial he
    | cons e' after =>
      exact hwhole.logged after q copied header since p b before (List.cons.inj hsplit).2

omit [DecidableEq P] in
/-- What was logged since the last commit is in the window. -/
theorem mem_windowBlocks {since before : List (Event P)} (hnone : ∀ e ∈ since, ¬ e.IsCommit)
    {p : P} {b : ℕ} : b ∈ windowBlocks (since ++ .logged p b :: before) := by
  induction since with
  | nil => exact Finset.mem_insert_self _ _
  | cons e since ih =>
    have hrest := ih fun e he => hnone e (List.mem_cons_of_mem _ he)
    cases e with
    | commit q copied header => exact absurd trivial (hnone _ List.mem_cons_self)
    | logged q b' => exact Finset.mem_insert_of_mem hrest
    | enter q | check q | leave q => exact hrest

/-- The invariant of the history. -/
structure History (s : State P) : Prop where
  /-- Operations are counted from their start to their end. -/
  entered : Entered s.history fun q => (s.role q).inOp
  /-- Operations are committed as a whole. -/
  whole : OperationsWhole s.history

omit [DecidableEq P] in
/-- Steps that record an event other than a commit. -/
theorem History.record {s s' : State P} (hhistory : History s) {e : Event P}
    (hrecord : s'.history = e :: s.history) (he : ¬ e.IsCommit)
    (henter : ∀ p, e = .enter p → (s'.role p).inOp = true)
    (hkeep : ∀ p, (s.role p).inOp = true → (s'.role p).inOp = true ∨ e = .leave p) :
    History s' := by
  constructor
  · rw [hrecord]
    exact hhistory.entered.cons henter hkeep
  · rw [hrecord]
    exact hhistory.whole.cons he

omit [DecidableEq P] in
/-- Steps that record nothing. -/
theorem History.frame {s s' : State P} (hhistory : History s) (hsame : s'.history = s.history)
    (hrole : ∀ q, (s'.role q).inOp = (s.role q).inOp) : History s' := by
  constructor
  · rw [hsame]
    intro later p earlier hsplit
    exact (hhistory.entered later p earlier hsplit).imp_right fun hin => (hrole p).trans hin
  · rw [hsame]
    exact hhistory.whole

/-- The write of the header commits every operation since the last commit as a whole. -/
theorem History.writeHead [Fintype P] {s s' : State P} {p : P} {copied : List ℕ}
    (hhistory : History s) (hadm : Admission s) (hcontent : Content s)
    (hpc : s.pc p = .writeHead copied)
    (hrecord : s'.history = .commit p copied s.lh.blocks :: s.history) : History s' := by
  have hp : (s.role p).committing = true := by rw [State.role, hpc]; rfl
  have hnobody := hadm.not_inOp (hadm.idle (hadm.flag p hp))
  have hidle : ∀ q, (s.role q).installing = false := by
    intro q
    by_cases hq : q = p
    · rw [hq, State.role, hpc]
      rfl
    · refine (Pc.of_not_committing ?_ s.lh).1
      by_contra hcommitting
      exact hq (hadm.unique q p (Bool.not_eq_false _ ▸ hcommitting) hp)
  have hcopied : copied = s.lh.blocks := by
    have h := hcontent.copied p
    rwa [hpc] at h
  constructor
  · rw [hrecord]
    refine hhistory.entered.cons nofun fun q hq => ?_
    rw [hnobody q] at hq
    cases hq
  · rw [hrecord]
    constructor
    · intro q copied' header hmem
      rcases List.mem_cons.mp hmem with heq | hmem
      · cases heq
        exact hcopied
      · exact hhistory.whole.copied q copied' header hmem
    · intro after q copied' header since p' before hsplit hnone
      cases after with
      | nil =>
        obtain ⟨heq, hrest⟩ := List.cons.inj hsplit
        cases heq
        constructor
        · rcases hhistory.entered since p' before hrest with hleft | hin
          · exact hleft
          · exact absurd ((hnobody p').symm.trans hin) Bool.false_ne_true
        · intro b hb
          obtain ⟨later, earlier, rfl⟩ := List.append_of_mem hb
          rw [List.append_assoc, List.cons_append] at hrest
          have hwindow : b ∈ windowBlocks s.history :=
            hrest ▸ mem_windowBlocks fun e he => hnone e (List.mem_append_left _ he)
          exact (hcontent.window hidle b).mpr hwindow
      | cons e after =>
        exact hhistory.whole.whole after q copied' header since p' before
          (List.cons.inj hsplit).2 hnone
    · intro after q copied' header since p' b before hsplit hnone
      cases after with
      | nil =>
        obtain ⟨heq, hrest⟩ := List.cons.inj hsplit
        cases heq
        exact (hcontent.window hidle b).mpr (hrest ▸ mem_windowBlocks hnone)
      | cons e after =>
        exact hhistory.whole.logged after q copied' header since p' b before
          (List.cons.inj hsplit).2 hnone

/-- Every step keeps the invariant of the history. -/
theorem History.step [Fintype P] {s s' : State P} {p : P} (hhistory : History s)
    (hadm : Admission s) (hcontent : Content s) (heffect : Effect s p s') : History s' := by
  cases heffect with
  | quiet hquiet =>
    have hframe := hquiet.frame
    have hrole : ∀ q, (s'.role q).inOp = (s.role q).inOp := fun q =>
      congrArg Prod.fst (hframe.counts q)
    rcases hframe.history with hsame | ⟨p', hrecord⟩
    · exact hhistory.frame hsame hrole
    · exact hhistory.record hrecord not_false nofun fun q hq => .inl ((hrole q).trans hq)
  | enter hpc hcommitting hroom =>
    refine hhistory.record rfl not_false (fun q hq => ?_) fun q hq => .inl ?_
    · cases hq
      rw [role_goto_self]
      rfl
    · by_cases hqp : q = p
      · rw [hqp, role_goto_self]
        rfl
      · exact (congrArg Role.inOp (role_goto_of_ne _ rfl q hqp)).trans hq
  | absorb hpc =>
    refine hhistory.record rfl not_false nofun fun q hq => .inl ?_
    exact (role_frame (s := s) Role.inOp rfl (by rw [State.role, hpc]; rfl) q).trans hq
  | leavePanic hpc | leaveCommit hpc | leaveWake hpc =>
    refine hhistory.record rfl not_false nofun fun q hq => ?_
    by_cases hqp : q = p
    · rw [hqp]
      exact .inr rfl
    · exact .inl ((congrArg Role.inOp (role_goto_of_ne _ rfl q hqp)).trans hq)
  | writeHead hpc => exact hhistory.writeHead hadm hcontent hpc rfl
  | clear hpc | commitEnd hpc =>
    exact hhistory.frame rfl (role_frame Role.inOp rfl (by rw [State.role, hpc]; rfl))

/-! ## Whole runs -/

/-- The invariant of all interleavings. -/
structure Inv [Fintype P] (s : State P) : Prop where
  /-- The locks. -/
  locks : Locks s
  /-- The fields of `log`. -/
  admission : Admission s
  /-- The sleepers. -/
  sleepers : Sleepers s
  /-- The header. -/
  content : Content s
  /-- Nothing is left in it between commits. -/
  settled : Settled s
  /-- The history. -/
  history : History s

omit [DecidableEq P] in
/-- After `initlog` nothing goes on. -/
theorem inv_init [Fintype P] (block : ℕ → ℕ) : Inv (init P block) := by
  have hrole : ∀ q, (init P block).role q = {} := fun _ => rfl
  constructor
  · constructor <;> intro q <;> simp only [hrole] <;> simp [init]
  · refine ⟨by simp only [hrole]; simp [init], fun _ => rfl, fun q hq => ?_, fun q q' hq => ?_⟩
    · cases hq
    · cases hq
  · intro q hq
    cases hq
  · refine ⟨List.nodup_nil, fun _ b => by simp [init, LogHeader.blocks, windowBlocks],
      fun q hq => ?_, fun q => trivial⟩
    cases hq
  · exact fun _ _ => rfl
  · refine ⟨fun later p earlier hsplit => ?_, ⟨fun q copied header hmem => ?_,
      fun after q _ _ _ _ _ hsplit => ?_, fun after q _ _ _ _ _ _ hsplit => ?_⟩⟩
    · cases later <;> cases hsplit
    · cases hmem
    · cases after <;> cases hsplit
    · cases after <;> cases hsplit

/-- Every step keeps the invariant. -/
theorem Inv.step [Fintype P] {log : LogArea} {s s' : State P} {a : Action P} (hinv : Inv s)
    (hs' : step log s a = some s') : Inv s' := by
  obtain ⟨p, heffect⟩ := effect_of_step hs'
  exact ⟨hinv.locks.step heffect, hinv.admission.step heffect,
    hinv.sleepers.step hinv.locks hinv.admission heffect,
    hinv.content.step hinv.admission heffect,
    hinv.settled.step hinv.admission hinv.content heffect,
    hinv.history.step hinv.admission hinv.content heffect⟩

/-- The invariant holds throughout every run. -/
theorem inv_run [Fintype P] {log : LogArea} {block : ℕ → ℕ}
    {guard : List (Action P) → State P → Action P → Prop} {trace : List (Action P)} {s : State P}
    (hrun : Run (step log) guard (init P block) trace s) : Inv s :=
  Run.invariant (I := fun _ s => Inv s) (inv_init block)
    (fun _ _ _ _ hinv _ hs' => hinv.step hs') hrun

/-- A process between the return of `begin_op` and the decrement in `end_op`, or at the
releases that follow and precede these. -/
def InOperation (s : State P) (p : P) : Prop := (s.role p).inOp = true

instance (s : State P) (p : P) : Decidable (InOperation s p) := inferInstanceAs (Decidable (_ = _))

/-- A process that is asleep in `begin_op`. -/
def Asleep (s : State P) (p : P) : Prop := s.pc p = .sleepSched ∨ s.pc p = .asleep

omit [DecidableEq P] in
/-- What has been logged and not been committed stands in the header, and an operation is under way
or a commit is running. -/
theorem Inv.pending [Fintype P] {s : State P} (hinv : Inv s) {later earlier : List (Event P)}
    {p : P} {b : ℕ} (hsplit : s.history = later ++ .logged p b :: earlier)
    (hnone : ∀ e ∈ later, ¬ e.IsCommit) :
    b ∈ s.lh.blocks ∧ (0 < s.outstanding ∨ s.committing = true) := by
  have hwindow : b ∈ windowBlocks s.history := hsplit ▸ mem_windowBlocks hnone
  have hidle : ∀ q, (s.role q).installing = false := by
    intro q
    by_contra hq
    rw [hinv.content.emptied q (Bool.not_eq_false _ ▸ hq)] at hwindow
    exact absurd hwindow (Finset.notMem_empty b)
  have hmem := (hinv.content.window hidle b).mpr hwindow
  refine ⟨hmem, ?_⟩
  by_contra hover
  rw [not_or, Bool.not_eq_true] at hover
  have hcount := hinv.admission.count
  have hempty := hinv.settled (by omega) hover.2
  rw [LogHeader.blocks, hempty] at hmem
  cases hmem

/-- Group commit: in every state of every interleaving, no operation runs while the commit flag
is set, `log.outstanding` counts the operations, operations are committed as a whole, what no
commit has written yet stands in the header and waits for the operations under way or the commit
that is running, the header names no block twice, and while `log.lock` is free every process
asleep in `begin_op` has a reason to be. -/
theorem group_commit [Fintype P] {log : LogArea} {block : ℕ → ℕ} {trace : List (Action P)}
    {s : State P} (hrun : Run (step log) free (init P block) trace s) :
    (s.committing = true → s.outstanding = 0) ∧
      s.outstanding = (Finset.univ.filter fun p => InOperation s p).card ∧
      OperationsWhole s.history ∧
      (∀ later p b earlier, s.history = later ++ .logged p b :: earlier →
        (∀ e ∈ later, ¬ e.IsCommit) →
          b ∈ s.lh.blocks ∧ (0 < s.outstanding ∨ s.committing = true)) ∧
      s.lh.blocks.Nodup ∧
      (s.logLock = none → ∀ p, Asleep s p → s.committing = true ∨
        (logSize : ℤ) < s.lh.n + (s.outstanding + 1) * maxOpBlocks) := by
  have hinv := inv_run hrun
  refine ⟨hinv.admission.idle, hinv.admission.count, hinv.history.whole,
    fun later p b earlier => hinv.pending, hinv.content.nodup, fun hfree p hasleep => ?_⟩
  have hsleeping : (s.role p).sleeping = true := by
    rcases hasleep with hpc | hpc <;> rw [State.role, hpc] <;> rfl
  rcases hinv.sleepers p hsleeping with hblocked | ⟨w, hw⟩
  · exact hblocked
  · -- a process about to wake the sleepers holds `log.lock`
    have hholds : (s.role w).holdsLog = true := by
      unfold State.role at hw ⊢
      cases hpc : s.pc w <;> simp [hpc, Pc.role] at hw ⊢
    have hlock := (hinv.locks.log w).mpr hholds
    rw [hfree] at hlock
    cases hlock

/-- An operation that logs two blocks and starts its commit, another one that goes to sleep in
`begin_op`, and the commit up to the empty header. -/
def commitAndSleeper (p q : P) : List (Action P) :=
  let run (r : P) (n : ℕ) : List (Action P) := List.replicate n (.advance r)
  .beginOp p :: run p 3 ++ .logWrite p 7 :: run p 5 ++ .logWrite p 9 :: run p 5 ++
    .endOp p :: run p 3 ++ .beginOp q :: run q 6 ++ run p 10

end

/-- The two blocks are in one commit, and the sleeper waits for its end. -/
theorem group_commit_commitAndSleeper :
    ∃ s header before, exec (step ⟨2, 30⟩) free [] (init (Fin 2) fun _ => 0)
        (commitAndSleeper 0 1) = some s ∧
      s.history = .commit 0 header header :: before ∧ 7 ∈ header ∧ 9 ∈ header ∧
      Asleep s 1 ∧ (s.committing = true ∨
        (logSize : ℤ) < s.lh.n + (s.outstanding + 1) * maxOpBlocks) := by
  have hexec : (exec (step ⟨2, 30⟩) free [] (init (Fin 2) fun _ => 0) (commitAndSleeper 0 1)).any
      (fun s => s.logLock == none && s.pc 1 == .asleep && s.history ==
        [.commit 0 [7, 9] [7, 9], .leave 0, .logged 0 9, .check 0, .logged 0 7, .check 0,
          .enter 0]) = true := by
    decide +kernel
  obtain ⟨s, hs, hend⟩ := (Option.any_eq_true _ _).mp hexec
  simp only [Bool.and_eq_true, beq_iff_eq] at hend
  obtain ⟨⟨hfree, hpc⟩, hhistory⟩ := hend
  obtain ⟨-, -, hwhole, -, -, hasleep⟩ := group_commit (run_of_exec hs)
  obtain ⟨-, hblocks⟩ := hwhole.whole [] 0 [7, 9] [7, 9]
    [.leave 0, .logged 0 9, .check 0, .logged 0 7, .check 0] 0 [] hhistory
    (by simp [Event.IsCommit])
  exact ⟨s, [7, 9], _, hs, hhistory, hblocks 7 (by simp), hblocks 9 (by simp), .inr hpc,
    hasleep hfree 1 (.inr hpc)⟩

end Xv6.LogOperations
