import Xv6.GroupCommit

/-!
# Admission to the log

`begin_op` admits an operation only if the log has room for `MAXOPBLOCKS` blocks of every
admitted operation. While each operation keeps to that limit, the header never names more
than `LOGSIZE` blocks. The test of `log_write` is stricter: it leaves out the header block of
the log, and it does not look whether the block is logged already.
-/

namespace Xv6.LogOperations

open GuardedRun

/-- The log of an image laid out by `mkfs`: `logstart` and `nlog`. -/
def mkfsLog : LogArea := ⟨2, logSize⟩

/-- The block of the `log_write` that a place belongs to, up to its entry into the header. -/
def Pc.logs : Pc → Option ℕ
  | .logSize b | .logOutstanding b | .logAcquire b | .logAbsorb b => some b
  | _ => none

section

variable {P : Type*} [DecidableEq P]

/-- The test of `log_write` finds the transaction too big. -/
def State.TooBig (log : LogArea) (s : State P) : Prop :=
  logSize ≤ s.lh.n ∨ (log.size : ℤ) - 1 ≤ s.lh.n

/-- The distinct blocks that the current operation of a process has logged. -/
def opBlocks (p : P) : List (Event P) → Finset ℕ
  | [] => ∅
  | .enter q :: history => if q = p then ∅ else opBlocks p history
  | .logged q b :: history => if q = p then insert b (opBlocks p history) else opBlocks p history
  | _ :: history => opBlocks p history

/-- Each operation logs at most `MAXOPBLOCKS` distinct blocks. -/
def OpLimit (_ : List (Action P)) (s : State P) : Action P → Prop
  | .logWrite p b => (insert b (opBlocks p s.history)).card ≤ maxOpBlocks
  | _ => True

instance (trace : List (Action P)) (s : State P) : ∀ a, Decidable (OpLimit trace s a)
  | .logWrite p b => inferInstanceAs (Decidable ((insert b (opBlocks p s.history)).card ≤ _))
  | .beginOp _ | .endOp _ | .advance _ | .kill _ => isTrue trivial

/-- At every test of the size, fewer than `LOGSIZE - 1` distinct blocks have been logged since
the last commit. -/
def SpareAtTests : List (Event P) → Prop
  | [] => True
  | .check _ :: history => (windowBlocks history).card < logSize - 1 ∧ SpareAtTests history
  | _ :: history => SpareAtTests history

/-- Whether every test had spare room can be computed. -/
def decidableSpareAtTests : ∀ history : List (Event P), Decidable (SpareAtTests history)
  | [] => isTrue trivial
  | .check _ :: history =>
      have := decidableSpareAtTests history
      inferInstanceAs (Decidable (_ ∧ SpareAtTests history))
  | .enter _ :: history | .logged _ _ :: history | .leave _ :: history
  | .commit _ _ _ :: history => decidableSpareAtTests history

instance (history : List (Event P)) : Decidable (SpareAtTests history) :=
  decidableSpareAtTests history

/-! ## Steps -/

/-- A step that does not test the size. -/
structure Untested (s : State P) (a : Action P) (p : P) (s' : State P) : Prop where
  /-- The other processes stay where they are or are woken. -/
  others : ∀ q, q ≠ p → s'.pc q = s.pc q ∨ s.pc q = .asleep ∧ s'.pc q = .runnable
  /-- The process is not at the panic. -/
  before : s.pc p ≠ .panicTooBig
  /-- It does not come to the panic. -/
  after : s'.pc p ≠ .panicTooBig
  /-- It goes on with the `log_write` it is in, or calls one. -/
  logs : ∀ b, (s'.pc p).logs = some b → (s.pc p).logs = some b ∨ a = .logWrite p b
  /-- The history records no test. -/
  history : s'.history = s.history ∨ ∃ e, s'.history = e :: s.history ∧ ∀ q, e ≠ .check q

/-- A move between places that are not the panic, which starts no `log_write`. -/
def Pc.Plain (d c : Pc) : Prop :=
  d ≠ .panicTooBig ∧ c ≠ .panicTooBig ∧ (c.logs = none ∨ c.logs = d.logs)

/-- A plain move tests nothing. -/
theorem untested_goto {s s₁ : State P} {a : Action P} {p : P} {c d : Pc} (hpc : s.pc p = d)
    (hkeep : s₁.pc = s.pc) (hplain : d.Plain c)
    (hhistory : s₁.history = s.history ∨ ∃ e, s₁.history = e :: s.history ∧ ∀ q, e ≠ .check q) :
    Untested s a p (s₁.goto p c) := by
  obtain ⟨hbefore, hafter, hlogs⟩ := hplain
  refine ⟨fun q hq => ?_, hpc ▸ hbefore, ?_, fun b hb => ?_, hhistory⟩
  · simp [State.goto, hq, hkeep]
  · simpa [State.goto] using hafter
  · left
    have hc : c.logs = some b := by simpa [State.goto] using hb
    rcases hlogs with hnone | hsame
    · rw [hnone] at hc
      cases hc
    · rw [hpc, ← hsame]
      exact hc

/-- Taking `log.lock` tests nothing. -/
theorem untested_lockLog {s s' : State P} {a : Action P} {p : P} {c d : Pc} (hpc : s.pc p = d)
    (hs' : s.lockLog p c = some s') (hplain : d.Plain c) : Untested s a p s' := by
  unfold State.lockLog at hs'
  split_ifs at hs'
  cases hs'
  exact untested_goto hpc rfl hplain (.inl rfl)

/-- Taking `ptable.lock` tests nothing. -/
theorem untested_lockPtable {s s' : State P} {a : Action P} {p : P} {c d : Pc}
    (hpc : s.pc p = d) (hs' : s.lockPtable p c = some s') (hplain : d.Plain c) :
    Untested s a p s' := by
  unfold State.lockPtable at hs'
  split_ifs at hs'
  cases hs'
  exact untested_goto hpc rfl hplain (.inl rfl)

/-- A step of the code tests the size, with the panic as one outcome, or tests nothing. -/
theorem test_of_advance {log : LogArea} {s s' : State P} {p : P}
    (hs' : advance log s p = some s') :
    (∃ b, s.pc p = .logSize b ∧
      (s.TooBig log ∧ s' = (s.record (.check p)).goto p .panicTooBig ∨
        ¬ s.TooBig log ∧ s' = (s.record (.check p)).goto p (.logOutstanding b))) ∨
      Untested s (.advance p) p s' := by
  unfold advance at hs'
  cases hpc : s.pc p <;> simp only [hpc] at hs'
  case logSize b =>
    left
    split_ifs at hs' with hbig <;> cases hs'
    · exact ⟨b, rfl, .inl ⟨hbig, rfl⟩⟩
    · exact ⟨b, rfl, .inr ⟨hbig, rfl⟩⟩
  all_goals right
  case beginAcquire | logAcquire | endAcquire | commitAcquire =>
    exact untested_lockLog hpc hs' (by simp [Pc.Plain, Pc.logs])
  case sleepAcquire | runnable | wakeAcquire =>
    exact untested_lockPtable hpc hs' (by simp [Pc.Plain, Pc.logs])
  case beginTest =>
    split_ifs at hs' <;> cases hs'
    · exact untested_goto hpc rfl (by simp [Pc.Plain, Pc.logs]) (.inl rfl)
    · exact untested_goto hpc rfl (by simp [Pc.Plain, Pc.logs]) (.inr ⟨_, rfl, by simp⟩)
  case logOutstanding =>
    split_ifs at hs' <;> cases hs'
    · exact untested_goto hpc rfl (by simp [Pc.Plain, Pc.logs]) (.inl rfl)
    · exact untested_goto hpc rfl (by simp [Pc.Plain, Pc.logs]) (.inl rfl)
  case endBody =>
    split_ifs at hs' <;> cases hs'
    all_goals exact untested_goto hpc rfl (by simp [Pc.Plain, Pc.logs]) (.inr ⟨_, rfl, by simp⟩)
  case logAbsorb | writeHead =>
    cases hs'
    exact untested_goto hpc rfl (by simp [Pc.Plain, Pc.logs]) (.inr ⟨_, rfl, by simp⟩)
  case commitTest | writeLog | installTrans =>
    cases hs'
    split_ifs <;> exact untested_goto hpc rfl (by simp [Pc.Plain, Pc.logs]) (.inl rfl)
  case wakeBody =>
    cases hs'
    refine ⟨fun q hq => ?_, by simp [hpc], by simp [State.goto], by simp [State.goto, Pc.logs],
      .inl rfl⟩
    simp only [State.goto, if_neg hq]
    split_ifs with hasleep
    · exact .inr ⟨hasleep, rfl⟩
    · exact .inl rfl
  case beginRelease | sleepUnlock | sleepMark | sleepSched | resumed | logRelease | wakeRelease
      | endUnlock | commitUnlock | clear | eraseHead | commitEnd =>
    cases hs'
    exact untested_goto hpc rfl (by simp [Pc.Plain, Pc.logs]) (.inl rfl)
  all_goals cases hs'

/-- A step tests the size, with the panic as one outcome, or tests nothing. -/
theorem test_of_step {log : LogArea} {s s' : State P} {a : Action P}
    (hs' : step log s a = some s') :
    (∃ p b, s.pc p = .logSize b ∧
      (s.TooBig log ∧ s' = (s.record (.check p)).goto p .panicTooBig ∨
        ¬ s.TooBig log ∧ s' = (s.record (.check p)).goto p (.logOutstanding b))) ∨
      ∃ p, Untested s a p s' := by
  cases a with
  | beginOp p | endOp p =>
    rw [step] at hs'
    split_ifs at hs' with hpc
    cases hs'
    exact .inr ⟨p, untested_goto hpc rfl (by simp [Pc.Plain, Pc.logs]) (.inl rfl)⟩
  | logWrite p b =>
    rw [step] at hs'
    split_ifs at hs' with hpc
    cases hs'
    refine .inr ⟨p, fun q hq => ?_, by simp [hpc], by simp [State.goto], fun b' hb' => ?_,
      .inl rfl⟩
    · simp [State.goto, hq]
    · -- the process calls `log_write` for this block
      have hblock : b = b' := by simpa [State.goto, Pc.logs] using hb'
      exact .inr (hblock ▸ rfl)
  | advance p =>
    rcases test_of_advance hs' with h | h
    · exact .inl ⟨p, h⟩
    · exact .inr ⟨p, h⟩
  | kill p =>
    rw [step] at hs'
    split_ifs at hs' with hpc
    cases hs'
    exact .inr ⟨p, untested_goto hpc.1 rfl (by simp [Pc.Plain, Pc.logs]) (.inl rfl)⟩

/-- Steps that do not test the size leave the panics as they are. -/
theorem Untested.panics {s s' : State P} {a : Action P} {p : P} (huntested : Untested s a p s')
    (q : P) : s'.pc q = .panicTooBig ↔ s.pc q = .panicTooBig := by
  by_cases hq : q = p
  · rw [hq]
    exact iff_of_false huntested.after huntested.before
  · rcases huntested.others q hq with h | ⟨hasleep, hrunnable⟩
    · rw [h]
    · rw [hasleep, hrunnable]
      simp

/-! ## The reservation -/

/-- Only `log_write` logs a block, and it goes on with the block it was called for. -/
theorem logs_of_step {log : LogArea} {s s' : State P} {a : Action P}
    (hs' : step log s a = some s') {q : P} {b : ℕ} (hb : (s'.pc q).logs = some b) :
    (s.pc q).logs = some b ∨ a = .logWrite q b := by
  rcases test_of_step hs' with ⟨p, b', hpc, ⟨-, rfl⟩ | ⟨-, rfl⟩⟩ | ⟨p, huntested⟩
  · by_cases hq : q = p
    · simp [State.goto, hq, Pc.logs] at hb
    · exact .inl (by simpa [State.goto, State.record, hq] using hb)
  · left
    by_cases hq : q = p
    · simpa [State.goto, hq, Pc.logs, hpc] using hb
    · simpa [State.goto, State.record, hq] using hb
  · by_cases hq : q = p
    · exact hq ▸ huntested.logs b (hq ▸ hb)
    · rcases huntested.others q hq with h | ⟨-, hrunnable⟩
      · exact .inl (h ▸ hb)
      · rw [hrunnable] at hb
        cases hb

/-- A process that is logging a block has not changed the blocks of its operation. -/
theorem opBlocks_of_logs {s s' : State P} {p q : P} {b : ℕ} (heffect : Effect s p s')
    (hb : (s'.pc q).logs = some b) : opBlocks q s'.history = opBlocks q s.history := by
  have hne : ∀ {s₁ : State P} {c : Pc}, c.logs = none → ((s₁.goto p c).pc q).logs = some b →
      p ≠ q := by
    rintro s₁ c hc hb rfl
    simp [State.goto, hc] at hb
  cases heffect with
  | quiet hquiet =>
    rcases hquiet.frame.history with h | ⟨p', h⟩ <;> rw [h]
    rfl
  | enter hpc => exact if_neg (hne (by rfl) hb)
  | absorb hpc => exact if_neg (hne (by rfl) hb)
  | leavePanic | leaveCommit | leaveWake | writeHead | clear | commitEnd => rfl

/-- Blocks that are being logged stay within the limit. -/
theorem pending_step {log : LogArea} {s s' : State P} {trace : List (Action P)} {a : Action P}
    (hpending : ∀ q b, (s.pc q).logs = some b →
      (insert b (opBlocks q s.history)).card ≤ maxOpBlocks)
    (hlimit : OpLimit trace s a) (hs' : step log s a = some s') {q : P} {b : ℕ}
    (hb : (s'.pc q).logs = some b) : (insert b (opBlocks q s'.history)).card ≤ maxOpBlocks := by
  obtain ⟨p, heffect⟩ := effect_of_step hs'
  rw [opBlocks_of_logs heffect hb]
  rcases logs_of_step hs' hb with hold | rfl
  · exact hpending q b hold
  · exact hlimit

variable [Fintype P]

omit [DecidableEq P] in
/-- While an operation runs, the header names the blocks logged since the last commit. -/
theorem Inv.card_windowBlocks {s : State P} (hinv : Inv s) {p : P}
    (hp : (s.role p).inOp = true) : (windowBlocks s.history).card = s.lh.n := by
  have hnone := hinv.admission.none_commits (hinv.admission.not_committing hp)
  have hidle : ∀ q, (s.role q).installing = false := fun q =>
    (Pc.of_not_committing (hnone q) s.lh).1
  have hsame : windowBlocks s.history = s.lh.blocks.toFinset := by
    ext b
    rw [List.mem_toFinset]
    exact (hinv.content.window hidle b).symm
  rw [hsame, List.toFinset_card_of_nodup hinv.content.nodup, LogHeader.length_blocks]

/-- What the admitted operations may still log. -/
def reserved (s : State P) : ℕ :=
  ∑ q ∈ Finset.univ.filter (fun q => (s.role q).inOp = true),
    (maxOpBlocks - (opBlocks q s.history).card)

/-- The log has room for what the admitted operations may still log. -/
structure Reservation (s : State P) : Prop where
  /-- What an admitted operation has logged is not yet committed. -/
  ops : ∀ q, (s.role q).inOp = true → opBlocks q s.history ⊆ windowBlocks s.history
  /-- A block that is being logged is within the limit of its operation. -/
  pending : ∀ q b, (s.pc q).logs = some b → (insert b (opBlocks q s.history)).card ≤ maxOpBlocks
  /-- There is room. -/
  room : s.lh.n + reserved s ≤ logSize

/-- The reservation depends on the admitted operations and on what they have logged. -/
theorem reserved_congr {s s' : State P} (hrole : ∀ q, (s'.role q).inOp = (s.role q).inOp)
    (hops : ∀ q, opBlocks q s'.history = opBlocks q s.history) : reserved s' = reserved s := by
  simp only [reserved, hrole, hops]

/-- A new operation reserves `MAXOPBLOCKS` blocks. -/
theorem reserved_enter {s s' : State P} {p : P} (hp : (s.role p).inOp = false)
    (hp' : (s'.role p).inOp = true) (hother : ∀ q, q ≠ p → s'.role q = s.role q)
    (hhistory : s'.history = .enter p :: s.history) :
    reserved s' = maxOpBlocks + reserved s := by
  have hinsert : (Finset.univ.filter fun q => (s'.role q).inOp = true) =
      insert p (Finset.univ.filter fun q => (s.role q).inOp = true) := by
    ext q
    by_cases hq : q = p
    · simp [hq, hp']
    · simp [hq, hother q hq]
  have hfresh : opBlocks p s'.history = ∅ := by
    rw [hhistory]
    exact if_pos rfl
  rw [reserved, hinsert, Finset.sum_insert (by simp [hp]), hfresh, reserved]
  congr 1
  refine Finset.sum_congr rfl fun q hq => ?_
  have hqp : p ≠ q := by
    rintro rfl
    simp [hp] at hq
  rw [hhistory, opBlocks, if_neg hqp]

/-- Steps that admit no operation and log nothing leave room. -/
theorem room_of_le {s s' : State P} (hroom : s.lh.n + reserved s ≤ logSize)
    (hlh : s'.lh.n ≤ s.lh.n) (hrole : ∀ q, (s'.role q).inOp = true → (s.role q).inOp = true)
    (hops : ∀ q, opBlocks q s'.history = opBlocks q s.history) :
    s'.lh.n + reserved s' ≤ logSize := by
  have hfewer : reserved s' ≤ reserved s := by
    simp only [reserved, hops]
    refine Finset.sum_le_sum_of_subset fun q hq => ?_
    simp only [Finset.mem_filter, Finset.mem_univ, true_and] at hq ⊢
    exact hrole q hq
  omega

/-- A block that is new to the operation takes one block of its reservation. -/
theorem reserved_logged {s s' : State P} {p : P} {b : ℕ} (hp : (s.role p).inOp = true)
    (hrole : ∀ q, (s'.role q).inOp = (s.role q).inOp)
    (hhistory : s'.history = .logged p b :: s.history)
    (hlimit : (insert b (opBlocks p s.history)).card ≤ maxOpBlocks)
    (hnew : b ∉ opBlocks p s.history) : reserved s' + 1 = reserved s := by
  have hmem : p ∈ Finset.univ.filter fun q => (s.role q).inOp = true := by simpa using hp
  have hother : ∀ q, q ≠ p → opBlocks q s'.history = opBlocks q s.history := by
    intro q hq
    rw [hhistory]
    exact if_neg hq.symm
  have hself : opBlocks p s'.history = insert b (opBlocks p s.history) := by
    rw [hhistory]
    exact if_pos rfl
  have hcard := Finset.card_insert_of_notMem hnew
  simp only [reserved, hrole]
  rw [← Finset.add_sum_erase _ _ hmem, ← Finset.add_sum_erase _ _ hmem, hself, hcard,
    Finset.sum_congr rfl fun q hq => by rw [hother q (Finset.ne_of_mem_erase hq)]]
  omega

/-- The test of `begin_op` leaves `MAXOPBLOCKS` blocks for each admitted operation. -/
theorem room_enter {s s' : State P} {p : P} (hinv : Inv s) (hspace : ¬ s.NoRoom)
    (hp : (s.role p).inOp = false) (hp' : (s'.role p).inOp = true)
    (hother : ∀ q, q ≠ p → s'.role q = s.role q) (hhistory : s'.history = .enter p :: s.history)
    (hlh : s'.lh = s.lh) : s'.lh.n + reserved s' ≤ logSize := by
  have hold : reserved s ≤ (Finset.univ.filter fun q => (s.role q).inOp = true).card *
      maxOpBlocks := Finset.sum_le_card_nsmul _ _ _ fun q _ => Nat.sub_le _ _
  have hcount := hinv.admission.count
  rw [reserved_enter hp hp' hother hhistory, hlh]
  simp only [State.NoRoom, hcount, logSize, maxOpBlocks] at hspace hold ⊢
  omega

/-- A logged block is new to the operation and takes from its reservation, or it is absorbed. -/
theorem Reservation.room_logged {s s' : State P} {p : P} {b : ℕ} (hres : Reservation s)
    (hinv : Inv s) (hinv' : Inv s') (hp : (s.role p).inOp = true)
    (hrole : ∀ q, (s'.role q).inOp = (s.role q).inOp)
    (hlimit : (insert b (opBlocks p s.history)).card ≤ maxOpBlocks)
    (hhistory : s'.history = .logged p b :: s.history) :
    s'.lh.n + reserved s' ≤ logSize := by
  have hroom := hres.room
  have hn := hinv.card_windowBlocks hp
  have hn' := hinv'.card_windowBlocks ((hrole p).trans hp)
  have hwindow : windowBlocks s'.history = insert b (windowBlocks s.history) := by
    rw [hhistory]
    rfl
  rw [hwindow] at hn'
  by_cases hmem : b ∈ opBlocks p s.history
  · have hops : ∀ q, opBlocks q s'.history = opBlocks q s.history := by
      intro q
      rw [hhistory, opBlocks]
      split_ifs with hq
      · rw [← hq, Finset.insert_eq_of_mem hmem]
      · rfl
    rw [Finset.insert_eq_of_mem (hres.ops p hp hmem)] at hn'
    rw [reserved_congr hrole hops]
    omega
  · have hless := reserved_logged hp hrole hhistory hlimit hmem
    have hgrow := Finset.card_insert_le b (windowBlocks s.history)
    omega

/-- The room for the reservations is kept by every step. -/
theorem Reservation.room_step {s s' : State P} {p : P} (hres : Reservation s) (hinv : Inv s)
    (hinv' : Inv s') (heffect : Effect s p s') : s'.lh.n + reserved s' ≤ logSize := by
  cases heffect with
  | quiet hquiet =>
    have hframe := hquiet.frame
    refine room_of_le hres.room (by rw [hframe.lh]) (fun q hq => ?_) fun q => ?_
    · exact (congrArg Prod.fst (hframe.counts q)).symm.trans hq
    · rcases hframe.history with h | ⟨p', h⟩ <;> rw [h]
      rfl
  | enter hpc hcommitting hspace =>
    have hp : (s.role p).inOp = false := by rw [State.role, hpc]; rfl
    exact room_enter hinv hspace hp (by rw [role_goto_self]; rfl) (role_goto_of_ne _ rfl) rfl rfl
  | @absorb b hpc =>
    have hp : (s.role p).inOp = true := by rw [State.role, hpc]; rfl
    refine hres.room_logged hinv hinv' hp (role_frame Role.inOp rfl ?_)
      (hres.pending p b (by rw [hpc]; rfl)) rfl
    rw [State.role, hpc]
    rfl
  | leavePanic hpc | leaveCommit hpc | leaveWake hpc | writeHead hpc | commitEnd hpc =>
    refine room_of_le hres.room le_rfl (fun q hq => ?_) fun q => rfl
    rw [State.role_goto] at hq
    split_ifs at hq with hqp
    · cases hq
    · exact hq
  | clear hpc =>
    refine room_of_le hres.room (Nat.zero_le _) (fun q hq => ?_) fun q => rfl
    rw [State.role_goto] at hq
    split_ifs at hq with hqp
    · cases hq
    · exact hq

/-- What an admitted operation has logged stays in the window. -/
theorem Reservation.ops_step {s s' : State P} {p : P} (hres : Reservation s) (hadm : Admission s)
    (heffect : Effect s p s') {q : P} (hq : (s'.role q).inOp = true) :
    opBlocks q s'.history ⊆ windowBlocks s'.history := by
  have hother : ∀ {s₁ : State P} {c : Pc}, s₁.pc = s.pc → q ≠ p →
      ((s₁.goto p c).role q).inOp = true → opBlocks q s.history ⊆ windowBlocks s.history := by
    intro s₁ c hpc hqp hin
    rw [role_goto_of_ne _ hpc q hqp] at hin
    exact hres.ops q hin
  cases heffect with
  | quiet hquiet =>
    have hframe := hquiet.frame
    have hold := hres.ops q ((congrArg Prod.fst (hframe.counts q)).symm.trans hq)
    rcases hframe.history with h | ⟨p', h⟩ <;> rw [h] <;> exact hold
  | enter hpc =>
    by_cases hqp : q = p
    · simp [State.goto, State.record, opBlocks, hqp]
    · have hold := hother rfl hqp hq
      simpa [State.goto, State.record, opBlocks, windowBlocks, Ne.symm hqp] using hold
  | @absorb b hpc =>
    have hsame : ((({ s with lh := s.lh.absorb b }.record (.logged p b)).goto p
        .logRelease).role q).inOp = (s.role q).inOp :=
      role_frame (s := s) Role.inOp rfl (by rw [State.role, hpc]; rfl) q
    have hold := hres.ops q (hsame.symm.trans hq)
    simp only [State.goto, State.record, opBlocks, windowBlocks]
    split_ifs
    · exact Finset.insert_subset_insert _ hold
    · exact hold.trans (Finset.subset_insert _ _)
  | leavePanic hpc | leaveCommit hpc | leaveWake hpc | clear hpc | commitEnd hpc =>
    by_cases hqp : q = p
    · rw [hqp, role_goto_self] at hq
      cases hq
    · exact hother rfl hqp hq
  | writeHead hpc =>
    -- no operation runs during a commit
    have hp : (s.role p).committing = true := by rw [State.role, hpc]; rfl
    have hnone := hadm.not_inOp (hadm.idle (hadm.flag p hp)) q
    rw [State.role_goto] at hq
    split_ifs at hq with hqp
    · cases hq
    · exact absurd (hnone.symm.trans hq) Bool.false_ne_true

/-- After `initlog` the whole log is free. -/
theorem reservation_init (block : ℕ → ℕ) : Reservation (init P block) := by
  constructor
  · intro q hq
    cases hq
  · intro q b hb
    cases hb
  · have hnone : reserved (init P block) = 0 := by simp [reserved, init, State.role, Pc.role]
    rw [hnone]
    exact Nat.zero_le _

/-- While each operation logs at most `MAXOPBLOCKS` distinct blocks, the log has room for
what the admitted operations may still log. -/
theorem reservation_run {log : LogArea} {block : ℕ → ℕ} {trace : List (Action P)} {s : State P}
    (hrun : Run (step log) OpLimit (init P block) trace s) : Reservation s := by
  have hboth : Inv s ∧ Reservation s := by
    refine Run.invariant (I := fun _ s => Inv s ∧ Reservation s) ?_ ?_ hrun
    · exact ⟨inv_init block, reservation_init block⟩
    · rintro trace s a s' ⟨hinv, hres⟩ hlimit hs'
      obtain ⟨p, heffect⟩ := effect_of_step hs'
      have hinv' := hinv.step hs'
      exact ⟨hinv', fun q hq => hres.ops_step hinv.admission heffect hq,
        fun q b hb => pending_step hres.pending hlimit hs' hb,
        hres.room_step hinv hinv' heffect⟩
  exact hboth.2

/-- The header never names more blocks than its array holds. -/
theorem header_le_logSize {log : LogArea} {block : ℕ → ℕ} {trace : List (Action P)} {s : State P}
    (hrun : Run (step log) OpLimit (init P block) trace s) : s.lh.n ≤ logSize :=
  le_trans (Nat.le_add_right _ _) (reservation_run hrun).room

/-! ## The test of the size -/

omit [DecidableEq P] [Fintype P] in
/-- Other events do not matter. -/
theorem spareAtTests_cons {e : Event P} (he : ∀ q, e ≠ .check q) (history : List (Event P)) :
    SpareAtTests (e :: history) ↔ SpareAtTests history := by
  cases e with
  | check q => exact absurd rfl (he q)
  | enter q | logged q b | leave q | commit q copied header => rfl

omit [DecidableEq P] [Fintype P] in
/-- On an image of `mkfs`, `log_write` finds a transaction of `LOGSIZE - 1` blocks too big. -/
theorem tooBig_mkfsLog (s : State P) : s.TooBig mkfsLog ↔ logSize - 1 ≤ s.lh.n := by
  simp only [State.TooBig, mkfsLog, logSize, maxOpBlocks]
  omega

/-- A step keeps the equivalence of no panic and of spare room at every test. -/
theorem spare_step {s s' : State P} {a : Action P} (hinv : Inv s)
    (hspare : (∀ q, s.pc q ≠ .panicTooBig) ↔ SpareAtTests s.history)
    (hs' : step mkfsLog s a = some s') :
    (∀ q, s'.pc q ≠ .panicTooBig) ↔ SpareAtTests s'.history := by
  rcases test_of_step hs' with ⟨p, b, hpc, htest⟩ | ⟨p, huntested⟩
  · have hcard := hinv.card_windowBlocks (p := p) (by rw [State.role, hpc]; rfl)
    rcases htest with ⟨hbig, rfl⟩ | ⟨hfits, rfl⟩
    · -- the process panics, and its own test is the one without spare room
      rw [tooBig_mkfsLog] at hbig
      refine iff_of_false (fun h => ?_) fun h => ?_
      · exact h p (by simp [State.goto])
      · have hroom := h.1
        omega
    · rw [tooBig_mkfsLog] at hfits
      have hother : ∀ q, ((s.record (.check p)).goto p (.logOutstanding b)).pc q = .panicTooBig ↔
          s.pc q = .panicTooBig := by
        intro q
        by_cases hq : q = p
        · simp [State.goto, hq, hpc]
        · simp [State.goto, State.record, hq]
      simp only [ne_eq, hother]
      constructor
      · intro h
        exact ⟨by omega, hspare.mp h⟩
      · intro h
        exact hspare.mpr h.2
  · have hhistory : SpareAtTests s'.history ↔ SpareAtTests s.history := by
      rcases huntested.history with h | ⟨e, h, he⟩
      · rw [h]
      · rw [h, spareAtTests_cons he]
    simp only [ne_eq, huntested.panics, hhistory]
    exact hspare

/-- Admission to the log, with operations of at most `MAXOPBLOCKS` blocks on an image of `mkfs`:
`log_write` does not panic exactly if at every test of the size fewer than `LOGSIZE - 1`
distinct blocks have been logged since the last commit. -/
theorem log_admission {block : ℕ → ℕ} {trace : List (Action P)} {s : State P}
    (hrun : Run (step mkfsLog) OpLimit (init P block) trace s) :
    (∀ p, s.pc p ≠ .panicTooBig) ↔ SpareAtTests s.history := by
  have hboth : Inv s ∧ ((∀ p, s.pc p ≠ .panicTooBig) ↔ SpareAtTests s.history) := by
    refine Run.invariant (I := fun _ s => Inv s ∧
      ((∀ p, s.pc p ≠ .panicTooBig) ↔ SpareAtTests s.history)) ?_ ?_ hrun
    · exact ⟨inv_init block, iff_of_true (by simp [init]) trivial⟩
    · rintro _ s a s' ⟨hinv, hspare⟩ _ hs'
      exact ⟨hinv.step hs', spare_step hinv hspare hs'⟩
  exact hboth.2

/-- Processes start operations, one after the other. -/
def start (processes : List P) : List (Action P) :=
  processes.flatMap fun p => .beginOp p :: List.replicate 3 (.advance p)

/-- A process logs blocks, one after the other. -/
def logAll (p : P) (blocks : List ℕ) : List (Action P) :=
  blocks.flatMap fun b => .logWrite p b :: List.replicate 5 (.advance p)

/-- An operation that logs a block twice while another one runs. -/
def blockLoggedTwice (p q : P) : List (Action P) := start [p, q] ++ logAll p [7, 7]

/-- Three operations, admitted together, of which two log ten blocks and the third logs nine
and calls `log_write` once more. -/
def threeFullOperations (p q r : P) : List (Action P) :=
  start [p, q, r] ++ logAll p (List.range' 0 10) ++ logAll q (List.range' 10 10) ++
    logAll r (List.range' 20 9) ++ [.logWrite r 29, .advance r]

end

/-- With spare room at both tests there is no panic. -/
theorem log_admission_blockLoggedTwice :
    ∃ s, exec (step mkfsLog) OpLimit [] (init (Fin 2) fun _ => 0) (blockLoggedTwice 0 1) =
        some s ∧
      s.lh.n = 1 ∧ ∀ p, s.pc p ≠ .panicTooBig := by
  have hexec : (exec (step mkfsLog) OpLimit [] (init (Fin 2) fun _ => 0)
      (blockLoggedTwice 0 1)).any (fun s => s.lh.n == 1 && decide (SpareAtTests s.history)) =
      true := by
    decide +kernel
  obtain ⟨s, hs, hend⟩ := (Option.any_eq_true _ _).mp hexec
  simp only [Bool.and_eq_true, beq_iff_eq, decide_eq_true_eq] at hend
  exact ⟨s, hs, hend.1, (log_admission (run_of_exec hs)).mpr hend.2⟩

/-- The last `log_write` panics, with room for one more block in the array of the header. -/
theorem log_admission_fails :
    ∃ s, Run (step mkfsLog) OpLimit (init (Fin 3) fun _ => 0)
        (threeFullOperations 0 1 2).reverse s ∧
      s.pc 2 = .panicTooBig ∧ s.lh.n + 1 = logSize := by
  have hexec : (exec (step mkfsLog) OpLimit [] (init (Fin 3) fun _ => 0)
      (threeFullOperations 0 1 2)).any (fun s => s.pc 2 == .panicTooBig && s.lh.n + 1 == logSize) =
      true := by
    decide +kernel
  obtain ⟨s, hs, hend⟩ := (Option.any_eq_true _ _).mp hexec
  simp only [Bool.and_eq_true, beq_iff_eq] at hend
  exact ⟨s, run_of_exec hs, hend⟩

end Xv6.LogOperations
