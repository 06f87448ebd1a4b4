import Xv6.SleepLocks

/-!
# Sleep locks exclude each other and strand nobody

In every run at most one process has completed `acquiresleep` and not yet `releasesleep` on
one sleep lock. A process falls asleep on a lock that is held; it can be asleep on a free one
only while the process that has just cleared `locked` still has its `wakeup` to do, and that
process holds the spin lock of the sleep lock until then.
-/

namespace Xv6.SleepLocks

open GuardedRun

variable {P ι κ : Type*} [DecidableEq P] [DecidableEq ι] [DecidableEq κ]

/-! ## Spin locks -/

/-- The spin locks a process holds at a position in `sleep(chan, lk)`. -/
def SleepPc.Holds (lk : Spin ι κ) : SleepPc → Spin ι κ → Prop
  | .acquire, k => k = lk
  | .release, k => k = lk ∨ k = .ptable
  | .mark, k | .sched, k | .tidy, k | .awake, k => k = .ptable
  | .asleep, _ | .reacquire, _ => False

/-- The spin locks a process takes up to a position in `wakeup`. -/
def WakePc.Holds : WakePc → Spin ι κ → Prop
  | .acquire, _ => False
  | .wake, k | .release, k => k = .ptable

/-- The spin locks a process holds at a position. -/
def Pc.Holds : Pc P ι κ → Spin ι κ → Prop
  | .idle, _ => False
  | .acquiresleep _ .acquire, _ => False
  | .acquiresleep l (.sleep pc), k => pc.Holds (.lk l) k
  | .acquiresleep l _, k => k = .lk l
  | .releasesleep _ .acquire, _ => False
  | .releasesleep l (.wakeup pc), k => k = .lk l ∨ pc.Holds k
  | .releasesleep l _, k => k = .lk l
  | .wait _ _ .acquire, _ => False
  | .wait _ lk (.sleep pc), k => pc.Holds (State.waitLock lk) k
  | .wait _ lk .release, k => k = State.waitLock lk
  | .wakeup _ pc, k => pc.Holds k
  | .kill _ .acquire, _ => False
  | .kill _ _, k => k = .ptable

/-- The positions of `sleep` that a caller with `ptable.lock` does not pass. -/
def SleepPc.Other : SleepPc → Prop
  | .acquire | .release | .awake | .reacquire => True
  | _ => False

/-- The positions that can be reached. -/
def Pc.Wf : Pc P ι κ → Prop
  | .wait _ lk (.sleep pc) => pc.Other → lk ≠ none
  | _ => True

/-- The spin locks are held by the processes at the positions that hold them. -/
structure Held (s : State P ι κ) : Prop where
  /-- The holder of a spin lock. -/
  holder : ∀ k q, s.spin k = some q ↔ (s.pc q).Holds k
  /-- The positions. -/
  wf : ∀ q, (s.pc q).Wf

namespace Held

variable {s s' : State P ι κ} {q : P} {n : Pc P ι κ} {k : Spin ι κ}

omit [DecidableEq ι] [DecidableEq κ] in
/-- A process moves on without taking or giving up a lock. -/
theorem move (h : Held s) (hspin : s'.spin = s.spin) (hpc : s'.pc = Function.update s.pc q n)
    (hholds : ∀ k, n.Holds k ↔ (s.pc q).Holds k) (hwf : n.Wf) : Held s' := by
  refine ⟨fun k r => ?_, fun r => ?_⟩
  · rw [hspin, hpc, h.holder, Function.update_apply]
    split_ifs with hr
    · rw [hr, hholds]
    · rfl
  · rw [hpc, Function.update_apply]
    split_ifs
    · exact hwf
    · exact h.wf r

/-- A process takes a lock. -/
theorem take (h : Held s) (hfree : s.spin k = none)
    (hspin : s'.spin = Function.update s.spin k (some q))
    (hpc : s'.pc = Function.update s.pc q n)
    (hholds : ∀ k', n.Holds k' ↔ (s.pc q).Holds k' ∨ k' = k) (hwf : n.Wf) : Held s' := by
  refine ⟨fun k' r => ?_, fun r => ?_⟩
  · have hnone : ∀ r, ¬ (s.pc r).Holds k := by
      intro r hr
      rw [← h.holder, hfree] at hr
      cases hr
    rw [hspin, hpc, Function.update_apply, Function.update_apply]
    by_cases hk : k' = k
    · subst hk
      by_cases hr : r = q
      · simp [hr, hholds]
      · simp [hr, hnone, Ne.symm hr]
    · rw [if_neg hk, h.holder]
      split_ifs with hr
      · rw [hr, hholds]
        simp [hk]
      · rfl
  · rw [hpc, Function.update_apply]
    split_ifs
    · exact hwf
    · exact h.wf r

/-- A process gives up a lock. -/
theorem give (h : Held s) (hheld : (s.pc q).Holds k)
    (hspin : s'.spin = Function.update s.spin k none)
    (hpc : s'.pc = Function.update s.pc q n)
    (hholds : ∀ k', n.Holds k' ↔ (s.pc q).Holds k' ∧ k' ≠ k) (hwf : n.Wf) : Held s' := by
  refine ⟨fun k' r => ?_, fun r => ?_⟩
  · have hq := (h.holder k q).mpr hheld
    rw [hspin, hpc, Function.update_apply, Function.update_apply]
    by_cases hk : k' = k
    · subst hk
      by_cases hr : r = q
      · simp [hr, hholds]
      · have hother : ¬ (s.pc r).Holds k' := by
          rw [← h.holder, hq]
          simpa using Ne.symm hr
        simp [hr, hother]
    · rw [if_neg hk, h.holder]
      split_ifs with hr
      · rw [hr, hholds]
        simp [hk]
      · rfl
  · rw [hpc, Function.update_apply]
    split_ifs
    · exact hwf
    · exact h.wf r

omit [DecidableEq P] [DecidableEq ι] [DecidableEq κ] in
/-- Two processes that hold one lock are the same. -/
theorem unique (h : Held s) {q r : P} (hq : (s.pc q).Holds k) (hr : (s.pc r).Holds k) :
    q = r := by
  rw [← h.holder] at hq hr
  rw [hq] at hr
  exact Option.some.inj hr

/-- `acquire`. -/
theorem acquire (h : Held s) (hs : s.acquire k q n = some s')
    (hholds : ∀ k', n.Holds k' ↔ (s.pc q).Holds k' ∨ k' = k) (hwf : n.Wf) : Held s' := by
  unfold State.acquire at hs
  split at hs
  · rename_i hfree
    cases hs
    exact h.take hfree rfl rfl hholds hwf
  · cases hs

/-- `sleep` gives up the lock it is called with and comes back with it. -/
theorem sleepStep (h : Held s) {chan : Chan ι κ} {lk : Spin ι κ} {here : SleepPc → Pc P ι κ}
    {back : Pc P ι κ} {at' : SleepPc} (hpc : s.pc q = here at')
    (hs : s.sleepStep q chan lk here back at' = some s')
    (hhere : ∀ pc k, (here pc).Holds k ↔ pc.Holds lk k) (hback : ∀ k, back.Holds k ↔ k = lk)
    (hwf : ∀ pc, (here pc).Wf ↔ (pc.Other → lk ≠ .ptable)) (hwfback : back.Wf) : Held s' := by
  have hreach : at'.Other → lk ≠ .ptable := by
    rw [← hwf, ← hpc]
    exact h.wf q
  have hholds : ∀ k, (s.pc q).Holds k ↔ at'.Holds lk k := by simp [hpc, hhere]
  cases at' with
  | acquire =>
    apply h.acquire hs
    · simp [hhere, hholds, SleepPc.Holds]
    · rw [hwf]
      exact fun _ => hreach trivial
  | release =>
    cases hs
    have hne := hreach trivial
    refine h.give (k := lk) ?_ rfl rfl ?_ ?_
    · simp [hholds, SleepPc.Holds]
    · intro k'
      simp only [hhere, hholds, SleepPc.Holds]
      grind
    · rw [hwf]
      exact fun hother => hother.elim
  | mark =>
    cases hs
    refine h.move rfl rfl ?_ ?_
    · simp [hhere, hholds, SleepPc.Holds]
    · rw [hwf]
      exact fun hother => hother.elim
  | sched =>
    cases hs
    refine h.give (k := .ptable) ?_ rfl rfl ?_ ?_
    · simp [hholds, SleepPc.Holds]
    · simp [hhere, hholds, SleepPc.Holds]
    · rw [hwf]
      exact fun hother => hother.elim
  | asleep =>
    simp only [State.sleepStep] at hs
    split at hs
    · have hheld : Held { s with state := Function.update s.state q .running } :=
        ⟨h.holder, h.wf⟩
      apply hheld.acquire hs
      · simp [hhere, hholds, SleepPc.Holds]
      · rw [hwf]
        exact fun hother => hother.elim
    · cases hs
  | tidy =>
    cases hs
    by_cases hlk : lk = .ptable
    · refine h.move (q := q) (n := back) rfl ?_ ?_ hwfback
      · simp [State.goto, hlk]
      · simp [hback, hholds, SleepPc.Holds, hlk]
    · refine h.move (q := q) (n := here .awake) rfl ?_ ?_ ?_
      · simp [State.goto, hlk]
      · simp [hhere, hholds, SleepPc.Holds]
      · rw [hwf]
        exact fun _ => hlk
  | awake =>
    cases hs
    refine h.give (k := .ptable) ?_ rfl rfl ?_ ?_
    · simp [hholds, SleepPc.Holds]
    · simp [hhere, hholds, SleepPc.Holds]
    · rw [hwf]
      exact fun _ => hreach trivial
  | reacquire =>
    apply h.acquire hs
    · simp [hback, hholds, SleepPc.Holds]
    · exact hwfback

/-- `wakeup` takes `ptable.lock` and gives it up. -/
theorem wakeStep (h : Held s) {chan : Chan ι κ} {here : WakePc → Pc P ι κ} {back : Pc P ι κ}
    {at' : WakePc} (hpc : s.pc q = here at') (hs : s.wakeStep q chan here back at' = some s')
    (hhere : ∀ pc k, (here pc).Holds k ↔ back.Holds k ∨ pc.Holds k)
    (hback : ¬ back.Holds .ptable) (hwf : ∀ pc, (here pc).Wf) (hwfback : back.Wf) : Held s' := by
  have hholds : ∀ k, (s.pc q).Holds k ↔ back.Holds k ∨ at'.Holds k := by simp [hpc, hhere]
  cases at' with
  | acquire =>
    apply h.acquire hs
    · simp [hhere, hholds, WakePc.Holds]
    · exact hwf _
  | wake =>
    cases hs
    refine h.move (n := here .release) rfl rfl ?_ (hwf _)
    simp [hhere, hholds, WakePc.Holds]
  | release =>
    cases hs
    refine h.give (k := .ptable) ?_ rfl rfl ?_ hwfback
    · simp [hholds, WakePc.Holds]
    · intro k'
      simp only [hholds, WakePc.Holds]
      grind

theorem acquiresleepStep (h : Held s) {l : ι} {at' : AcquirePc}
    (hpc : s.pc q = .acquiresleep l at') (hs : s.acquiresleepStep q l at' = some s') :
    Held s' := by
  cases at' with
  | acquire =>
    apply h.acquire hs
    · simp [hpc, Pc.Holds]
    · trivial
  | test =>
    cases hs
    refine h.move rfl rfl ?_ trivial
    intro k
    split <;> simp [hpc, Pc.Holds, State.sleepEntry, SleepPc.Holds]
  | sleep pc =>
    simp only [State.acquiresleepStep] at hs
    exact h.sleepStep hpc hs (fun _ _ => Iff.rfl) (fun _ => Iff.rfl)
      (fun _ => by simp [Pc.Wf]) trivial
  | lock =>
    cases hs
    refine h.move (n := .acquiresleep l .release) rfl rfl ?_ trivial
    simp [hpc, Pc.Holds]
  | release =>
    cases hs
    refine h.give (k := .lk l) ?_ rfl rfl ?_ trivial
    · simp [hpc, Pc.Holds]
    · simp [hpc, Pc.Holds]

theorem releasesleepStep (h : Held s) {l : ι} {at' : ReleasePc}
    (hpc : s.pc q = .releasesleep l at') (hs : s.releasesleepStep q l at' = some s') :
    Held s' := by
  cases at' with
  | acquire =>
    apply h.acquire hs
    · simp [hpc, Pc.Holds]
    · trivial
  | unlock =>
    cases hs
    refine h.move (n := .releasesleep l (.wakeup .acquire)) rfl rfl ?_ trivial
    simp [hpc, Pc.Holds, WakePc.Holds]
  | wakeup pc =>
    simp only [State.releasesleepStep] at hs
    exact h.wakeStep hpc hs (fun _ _ => Iff.rfl) (by simp [Pc.Holds]) (fun _ => trivial) trivial
  | release =>
    cases hs
    refine h.give (k := .lk l) ?_ rfl rfl ?_ trivial
    · simp [hpc, Pc.Holds]
    · simp [hpc, Pc.Holds]

theorem waitStep (h : Held s) {chan : κ} {lk : Option κ} {at' : WaitPc}
    (hpc : s.pc q = .wait chan lk at') (hs : s.waitStep q chan lk at' = some s') : Held s' := by
  have hlk : (State.waitLock lk : Spin ι κ) = .ptable ↔ lk = none := by
    cases lk <;> simp [State.waitLock]
  cases at' with
  | acquire =>
    apply h.acquire hs
    · intro k
      simp only [hpc, Pc.Holds, State.sleepEntry]
      split_ifs <;> simp_all [SleepPc.Holds]
    · simp only [Pc.Wf, State.sleepEntry]
      split_ifs <;> simp_all [SleepPc.Other]
  | sleep pc =>
    simp only [State.waitStep] at hs
    refine h.sleepStep hpc hs (fun _ _ => Iff.rfl) (fun _ => Iff.rfl) (fun _ => ?_) trivial
    rw [Pc.Wf, Ne, Ne, hlk]
  | release =>
    cases hs
    refine h.give (k := State.waitLock lk) ?_ rfl rfl ?_ trivial
    · simp [hpc, Pc.Holds]
    · simp [hpc, Pc.Holds]

theorem killStep (h : Held s) {target : Option P} {at' : KillPc}
    (hpc : s.pc q = .kill target at') (hs : s.killStep q target at' = some s') : Held s' := by
  cases at' with
  | acquire =>
    apply h.acquire hs
    · simp [hpc, Pc.Holds]
    · trivial
  | mark =>
    cases hs
    cases target with
    | none =>
      refine h.move (n := .kill none .release) rfl rfl ?_ trivial
      simp [hpc, Pc.Holds]
    | some p =>
      refine h.move (n := .kill (some p) .release) rfl rfl ?_ trivial
      simp [hpc, Pc.Holds]
  | release =>
    cases hs
    refine h.give (k := .ptable) ?_ rfl rfl ?_ trivial
    · simp [hpc, Pc.Holds]
    · simp [hpc, Pc.Holds]

omit [DecidableEq ι] [DecidableEq κ] in
theorem call (h : Held s) (hs : s.call q n = some s') (hholds : ∀ k, ¬ n.Holds k)
    (hwf : n.Wf) : Held s' := by
  unfold State.call at hs
  split at hs
  · rename_i hidle
    cases hs
    refine h.move rfl rfl ?_ hwf
    intro k
    rw [hidle]
    exact iff_of_false (hholds k) id
  · cases hs

/-- One step. -/
theorem step (h : Held s) {a : Action P ι κ} (hs : step s a = some s') : Held s' := by
  cases a with
  | acquiresleep q l => exact h.call hs (fun _ => id) trivial
  | releasesleep q l =>
    simp only [SleepLocks.step] at hs
    split at hs
    · exact h.call hs (fun _ => id) trivial
    · cases hs
  | wait q chan lk => exact h.call hs (fun _ => id) trivial
  | wakeup q chan => exact h.call hs (fun _ => id) trivial
  | kill q target => exact h.call hs (fun _ => id) trivial
  | run q =>
    simp only [SleepLocks.step] at hs
    cases hpc : s.pc q with
    | idle =>
      rw [hpc] at hs
      cases hs
    | acquiresleep l pc =>
      rw [hpc] at hs
      exact h.acquiresleepStep hpc hs
    | releasesleep l pc =>
      rw [hpc] at hs
      exact h.releasesleepStep hpc hs
    | wait chan lk pc =>
      rw [hpc] at hs
      exact h.waitStep hpc hs
    | wakeup chan pc =>
      rw [hpc] at hs
      exact h.wakeStep hpc hs (fun _ _ => by simp [Pc.Holds]) id (fun _ => trivial) trivial
    | kill target pc =>
      rw [hpc] at hs
      exact h.killStep hpc hs

end Held

/-! ## The steps that only sleep and wake -/

/-- `sleep` leaves the sleep locks alone. -/
theorem State.sleepStep_frame {s s' : State P ι κ} {q : P} {chan : Chan ι κ} {lk : Spin ι κ}
    {here : SleepPc → Pc P ι κ} {back : Pc P ι κ} {pc : SleepPc}
    (hs : s.sleepStep q chan lk here back pc = some s') :
    s'.lock = s.lock ∧ s'.holds = s.holds ∧
      ∃ pc', s'.pc = Function.update s.pc q pc' ∧ (pc' = back ∨ ∃ at', pc' = here at') := by
  cases pc with
  | acquire | reacquire =>
    simp only [State.sleepStep, State.acquire] at hs
    split at hs
    · cases hs
      exact ⟨rfl, rfl, _, rfl, by simp⟩
    · cases hs
  | asleep =>
    simp only [State.sleepStep, State.acquire] at hs
    split at hs
    · split at hs
      · cases hs
        exact ⟨rfl, rfl, _, rfl, by simp⟩
      · cases hs
    · cases hs
  | tidy =>
    cases hs
    refine ⟨rfl, rfl, _, rfl, ?_⟩
    split <;> simp
  | release | mark | sched | awake =>
    cases hs
    exact ⟨rfl, rfl, _, rfl, by simp⟩

/-- `wakeup` leaves the sleep locks alone. -/
theorem State.wakeStep_frame {s s' : State P ι κ} {q : P} {chan : Chan ι κ}
    {here : WakePc → Pc P ι κ} {back : Pc P ι κ} {pc : WakePc}
    (hs : s.wakeStep q chan here back pc = some s') :
    s'.lock = s.lock ∧ s'.holds = s.holds ∧
      ∃ pc', s'.pc = Function.update s.pc q pc' ∧ (pc' = back ∨ ∃ at', pc' = here at') := by
  cases pc with
  | acquire =>
    simp only [State.wakeStep, State.acquire] at hs
    split at hs
    · cases hs
      exact ⟨rfl, rfl, _, rfl, by simp⟩
    · cases hs
  | wake | release =>
    cases hs
    exact ⟨rfl, rfl, _, rfl, by simp⟩

omit [DecidableEq P] [DecidableEq ι] [DecidableEq κ] in
/-- `acquire` changes a spin lock and a position. -/
theorem State.acquire_eq {s s' : State P ι κ} [DecidableEq P] [DecidableEq ι] [DecidableEq κ]
    {k : Spin ι κ} {q : P} {pc : Pc P ι κ} (hs : s.acquire k q pc = some s') :
    s' = { s with spin := Function.update s.spin k (some q) }.goto q pc := by
  unfold State.acquire at hs
  split at hs
  · exact (Option.some.inj hs).symm
  · cases hs

/-! ## Exclusion -/

/-- Where a process is between the test that finds a sleep lock free and the end of
`releasesleep`. -/
inductive Phase
  /-- Anywhere else. -/
  | out
  /-- It has found the lock free. -/
  | seen
  /-- It has set `locked`. -/
  | locking
  /-- In `releasesleep`, before `locked` is cleared. -/
  | releasing
  /-- In `releasesleep`, after that. -/
  | unlocked
  deriving DecidableEq

/-- The phase of a position. -/
def Pc.phase (l : ι) : Pc P ι κ → Phase
  | .acquiresleep m .lock => if m = l then .seen else .out
  | .acquiresleep m .release => if m = l then .locking else .out
  | .releasesleep m .acquire | .releasesleep m .unlock => if m = l then .releasing else .out
  | .releasesleep m (.wakeup _) | .releasesleep m .release => if m = l then .unlocked else .out
  | _ => .out

/-- `locked` is set on behalf of a process. -/
def State.Keeps (s : State P ι κ) (q : P) (l : ι) : Prop :=
  (s.pc q).phase l = .locking ∨ s.holds q l = true ∧ (s.pc q).phase l ≠ .unlocked

/-- `locked` says whether the sleep lock is held, and it is held once. -/
structure Owned (s : State P ι κ) : Prop where
  /-- `locked` is 0 or 1. -/
  locked : ∀ l, (s.lock l).locked = 0 ∨ (s.lock l).locked = 1
  /-- `releasesleep` is called by a holder. -/
  holds : ∀ q l, (s.pc q).phase l = .releasing ∨ (s.pc q).phase l = .unlocked →
    s.holds q l = true
  /-- Whoever keeps the lock has set `locked`. -/
  keeps : ∀ q l, s.Keeps q l → (s.lock l).locked = 1
  /-- One process keeps the lock. -/
  unique : ∀ q r l, s.Keeps q l → s.Keeps r l → q = r
  /-- What was found free, or was freed, is free until the spin lock is given up. -/
  free : ∀ q l, (s.pc q).phase l = .seen ∨ (s.pc q).phase l = .unlocked →
    (s.lock l).locked = 0

namespace Owned

variable {s s' : State P ι κ} {q : P} {l : ι} {n : Pc P ι κ}

omit [DecidableEq κ] in
/-- A step within a phase. -/
theorem frame (h : Owned s) (hlock : s'.lock = s.lock) (hholds : s'.holds = s.holds)
    (hpc : s'.pc = Function.update s.pc q n) (hphase : ∀ l, n.phase l = (s.pc q).phase l) :
    Owned s' := by
  have hsame : ∀ r l, (s'.pc r).phase l = (s.pc r).phase l := by
    intro r l
    rw [hpc, Function.update_apply]
    split_ifs with hr
    · rw [hr, hphase]
    · rfl
  have hkeeps : ∀ r l, s'.Keeps r l ↔ s.Keeps r l := by simp [State.Keeps, hsame, hholds]
  constructor
  · simpa only [hlock] using h.locked
  · simpa only [hsame, hholds] using h.holds
  · simpa only [hkeeps, hlock] using h.keeps
  · simpa only [hkeeps] using h.unique
  · simpa only [hsame, hlock] using h.free

/-- `acquire` does not enter a phase. -/
theorem acquire (h : Owned s) {k : Spin ι κ} (hs : s.acquire k q n = some s')
    (hphase : ∀ l, n.phase l = (s.pc q).phase l) : Owned s' := by
  cases State.acquire_eq hs
  exact h.frame rfl rfl rfl hphase

/-- `release` does not leave a phase. -/
theorem release (h : Owned s) (k : Spin ι κ)
    (hphase : ∀ l, n.phase l = (s.pc q).phase l) : Owned (s.release k q n) :=
  h.frame rfl rfl rfl hphase

omit [DecidableEq κ] in
/-- A step that enters another phase of one sleep lock, and may change that lock. -/
theorem change (h : Owned s) (hpc : s'.pc = Function.update s.pc q n)
    (hlock : ∀ m, m ≠ l → s'.lock m = s.lock m)
    (hholds : ∀ r m, r ≠ q ∨ m ≠ l → s'.holds r m = s.holds r m)
    (hphase : ∀ m, m ≠ l → n.phase m = (s.pc q).phase m)
    (hlocked : (s'.lock l).locked = 0 ∨ (s'.lock l).locked = 1)
    (hreleasing : n.phase l = .releasing ∨ n.phase l = .unlocked → s'.holds q l = true)
    (hkeeps : s'.Keeps q l → (s'.lock l).locked = 1)
    (hothers : ∀ r, r ≠ q → s.Keeps r l → (s'.lock l).locked = 1 ∧ ¬ s'.Keeps q l)
    (hfree : ∀ r, (s'.pc r).phase l = .seen ∨ (s'.pc r).phase l = .unlocked →
      (s'.lock l).locked = 0) : Owned s' := by
  have hsame : ∀ r m, r ≠ q ∨ m ≠ l → (s'.pc r).phase m = (s.pc r).phase m := by
    intro r m hne
    rw [hpc, Function.update_apply]
    split_ifs with hr
    · rw [hr, hphase m (hne.resolve_left (not_not_intro hr))]
    · rfl
  have hkeeper : ∀ r m, r ≠ q ∨ m ≠ l → (s'.Keeps r m ↔ s.Keeps r m) := by
    intro r m hne
    unfold State.Keeps
    rw [hsame r m hne, hholds r m hne]
  constructor
  · intro m
    by_cases hm : m = l
    · exact hm ▸ hlocked
    · rw [hlock m hm]
      exact h.locked m
  · intro r m
    by_cases hrm : r = q ∧ m = l
    · obtain ⟨rfl, rfl⟩ := hrm
      simpa [hpc] using hreleasing
    · rw [hsame r m (by tauto), hholds r m (by tauto)]
      exact h.holds r m
  · intro r m hr
    by_cases hm : m = l
    · subst hm
      by_cases hrq : r = q
      · exact hkeeps (hrq ▸ hr)
      · exact (hothers r hrq ((hkeeper r m (.inl hrq)).mp hr)).1
    · rw [hlock m hm]
      exact h.keeps r m ((hkeeper r m (.inr hm)).mp hr)
  · intro r t m hr ht
    by_cases hm : m = l
    · subst hm
      by_cases hrq : r = q <;> by_cases htq : t = q
      · rw [hrq, htq]
      · exact absurd (hrq ▸ hr) (hothers t htq ((hkeeper t m (.inl htq)).mp ht)).2
      · exact absurd (htq ▸ ht) (hothers r hrq ((hkeeper r m (.inl hrq)).mp hr)).2
      · exact h.unique r t m ((hkeeper r m (.inl hrq)).mp hr) ((hkeeper t m (.inl htq)).mp ht)
    · exact h.unique r t m ((hkeeper r m (.inr hm)).mp hr) ((hkeeper t m (.inr hm)).mp ht)
  · intro r m hr
    by_cases hm : m = l
    · subst hm
      exact hfree r hr
    · rw [hlock m hm]
      exact h.free r m (by rwa [hsame r m (.inr hm)] at hr)

omit [DecidableEq κ] [DecidableEq P] in
/-- A free lock is kept by nobody. -/
theorem not_keeps (h : Owned s) (hfree : (s.lock l).locked = 0) (r : P) : ¬ s.Keeps r l := by
  intro hr
  have hlocked := h.keeps r l hr
  omega

omit [DecidableEq κ] [DecidableEq P] in
/-- A process that has found a lock free, or has freed it, holds its spin lock. -/
theorem holds_lk (hphase : (n : Pc P ι κ).phase l = .seen ∨ n.phase l = .unlocked) :
    n.Holds (.lk l) := by
  cases n with
  | acquiresleep m at' => cases at' <;> grind [Pc.phase, Pc.Holds]
  | releasesleep m at' => cases at' <;> grind [Pc.phase, Pc.Holds]
  | _ => simp [Pc.phase] at hphase

omit [DecidableEq κ] in
theorem test (h : Owned s) (hpc : s.pc q = .acquiresleep l .test)
    (hfree : (s.lock l).locked = 0) : Owned (s.goto q (.acquiresleep l .lock)) := by
  have hnone := h.not_keeps hfree
  refine h.change (l := l) rfl (fun _ _ => rfl) (fun _ _ _ => rfl) ?_ (.inl hfree) ?_ ?_ ?_ ?_
  · intro m hm
    simp [hpc, Pc.phase, hm.symm]
  · simp [Pc.phase]
  · intro hq
    have hkeeps : s.Keeps q l := by
      simpa [State.Keeps, State.goto, Pc.phase, hpc] using hq
    exact absurd hkeeps (hnone q)
  · exact fun r _ hr => absurd hr (hnone r)
  · exact fun _ _ => hfree

omit [DecidableEq κ] in
/-- The sleep lock is taken. -/
theorem lock (h : Owned s) (hheld : Held s) (hpc : s.pc q = .acquiresleep l .lock) :
    Owned ({ s with lock := Function.update s.lock l ⟨1, s.pid q⟩ }.goto q
      (.acquiresleep l .release)) := by
  have hfree := h.free q l (by simp [hpc, Pc.phase])
  have hnone := h.not_keeps hfree
  refine h.change (l := l) rfl ?_ (fun _ _ _ => rfl) ?_ ?_ ?_ ?_ ?_ ?_
  · intro m hm
    simp [State.goto, hm]
  · intro m hm
    simp [hpc, Pc.phase, hm.symm]
  · simp [State.goto]
  · simp [Pc.phase]
  · simp [State.goto]
  · exact fun r _ hr => absurd hr (hnone r)
  · intro r hr
    by_cases hrq : r = q
    · simp [State.goto, hrq, Pc.phase] at hr
    · simp only [State.goto, Function.update_of_ne hrq] at hr
      have hq : (s.pc q).Holds (.lk l) := by simp [hpc, Pc.Holds]
      exact absurd (hheld.unique (holds_lk hr) hq) hrq

/-- `acquiresleep` returns. -/
theorem acquired (h : Owned s) (hpc : s.pc q = .acquiresleep l .release) :
    Owned ({ s with
      holds := Function.update s.holds q (Function.update (s.holds q) l true) }.release
        (.lk l) q .idle) := by
  have hq : s.Keeps q l := by simp [State.Keeps, hpc, Pc.phase]
  have hlocked := h.keeps q l hq
  have hunique : ∀ r, r ≠ q → ¬ s.Keeps r l := fun r hr hkeeps => hr (h.unique r q l hkeeps hq)
  refine h.change (l := l) rfl (fun _ _ => rfl) ?_ ?_ (.inr hlocked) ?_ (fun _ => hlocked) ?_ ?_
  · rintro r m hne
    simp only [State.release, State.goto, Function.update_apply]
    split_ifs with hr
    · subst hr
      rw [Function.update_of_ne (hne.resolve_left (not_not_intro rfl))]
    · rfl
  · intro m hm
    simp [hpc, Pc.phase, hm.symm]
  · simp [Pc.phase]
  · exact fun r hr hkeeps => absurd hkeeps (hunique r hr)
  · intro r hr
    by_cases hrq : r = q
    · simp [State.release, State.goto, hrq, Pc.phase] at hr
    · simp only [State.release, State.goto, Function.update_of_ne hrq] at hr
      exact h.free r l hr

omit [DecidableEq κ] in
/-- The sleep lock is freed. -/
theorem unlock (h : Owned s) (hpc : s.pc q = .releasesleep l .unlock) :
    Owned ({ s with lock := Function.update s.lock l ⟨0, 0⟩ }.goto q
      (.releasesleep l (.wakeup .acquire))) := by
  have hholds := h.holds q l (by simp [hpc, Pc.phase])
  have hq : s.Keeps q l := by simp [State.Keeps, hpc, Pc.phase, hholds]
  have hunique : ∀ r, r ≠ q → ¬ s.Keeps r l := fun r hr hkeeps => hr (h.unique r q l hkeeps hq)
  refine h.change (l := l) rfl ?_ (fun _ _ _ => rfl) ?_ ?_ (fun _ => hholds) ?_ ?_ ?_
  · intro m hm
    simp [State.goto, hm]
  · intro m hm
    simp [hpc, Pc.phase, hm.symm]
  · simp [State.goto]
  · simp [State.goto, State.Keeps, Pc.phase]
  · exact fun r hr hkeeps => absurd hkeeps (hunique r hr)
  · simp [State.goto]

/-- `releasesleep` returns. -/
theorem released (h : Owned s) (hpc : s.pc q = .releasesleep l .release) :
    Owned ({ s with
      holds := Function.update s.holds q (Function.update (s.holds q) l false) }.release
        (.lk l) q .idle) := by
  have hfree := h.free q l (by simp [hpc, Pc.phase])
  have hnone := h.not_keeps hfree
  refine h.change (l := l) rfl (fun _ _ => rfl) ?_ ?_ (.inl hfree) ?_ ?_ ?_ (fun _ _ => hfree)
  · rintro r m hne
    simp only [State.release, State.goto, Function.update_apply]
    split_ifs with hr
    · subst hr
      rw [Function.update_of_ne (hne.resolve_left (not_not_intro rfl))]
    · rfl
  · intro m hm
    simp [hpc, Pc.phase, hm.symm]
  · simp [Pc.phase]
  · simp [State.Keeps, State.release, State.goto, Pc.phase]
  · exact fun r _ hr => absurd hr (hnone r)

omit [DecidableEq κ] in
/-- `releasesleep` is called. -/
theorem releasing (h : Owned s) (hpc : s.pc q = .idle) (hholds : s.holds q l = true) :
    Owned (s.goto q (.releasesleep l .acquire)) := by
  have hq : s.Keeps q l := by simp [State.Keeps, hpc, Pc.phase, hholds]
  have hlocked := h.keeps q l hq
  have hunique : ∀ r, r ≠ q → ¬ s.Keeps r l := fun r hr hkeeps => hr (h.unique r q l hkeeps hq)
  refine h.change (l := l) rfl (fun _ _ => rfl) (fun _ _ _ => rfl) ?_ (.inr hlocked)
    (fun _ => hholds) (fun _ => hlocked) ?_ ?_
  · intro m hm
    simp [hpc, Pc.phase, hm.symm]
  · exact fun r hr hkeeps => absurd hkeeps (hunique r hr)
  · intro r hr
    by_cases hrq : r = q
    · simp [State.goto, hrq, Pc.phase] at hr
    · simp only [State.goto, Function.update_of_ne hrq] at hr
      exact h.free r l hr

theorem acquiresleepStep (h : Owned s) (hheld : Held s) {at' : AcquirePc}
    (hpc : s.pc q = .acquiresleep l at') (hs : s.acquiresleepStep q l at' = some s') :
    Owned s' := by
  cases at' with
  | acquire =>
    apply h.acquire hs
    simp [hpc, Pc.phase]
  | test =>
    cases hs
    split_ifs with hlocked
    · refine h.frame (q := q) (n := .acquiresleep l (.sleep _)) rfl rfl rfl ?_
      simp [hpc, Pc.phase]
    · exact h.test hpc (not_not.mp hlocked)
  | sleep pc =>
    simp only [State.acquiresleepStep] at hs
    obtain ⟨hlock, hholds, pc', hpc', hback⟩ := State.sleepStep_frame hs
    refine h.frame hlock hholds hpc' ?_
    obtain rfl | ⟨at', rfl⟩ := hback
    · simp [hpc, Pc.phase]
    · simp [hpc, Pc.phase]
  | lock =>
    cases hs
    exact h.lock hheld hpc
  | release =>
    cases hs
    exact h.acquired hpc

theorem releasesleepStep (h : Owned s) {at' : ReleasePc} (hpc : s.pc q = .releasesleep l at')
    (hs : s.releasesleepStep q l at' = some s') : Owned s' := by
  cases at' with
  | acquire =>
    apply h.acquire hs
    simp [hpc, Pc.phase]
  | unlock =>
    cases hs
    exact h.unlock hpc
  | wakeup pc =>
    simp only [State.releasesleepStep] at hs
    obtain ⟨hlock, hholds, pc', hpc', hback⟩ := State.wakeStep_frame hs
    refine h.frame hlock hholds hpc' ?_
    obtain rfl | ⟨at', rfl⟩ := hback
    · simp [hpc, Pc.phase]
    · simp [hpc, Pc.phase]
  | release =>
    cases hs
    exact h.released hpc

theorem waitStep (h : Owned s) {chan : κ} {lk : Option κ} {at' : WaitPc}
    (hpc : s.pc q = .wait chan lk at') (hs : s.waitStep q chan lk at' = some s') : Owned s' := by
  cases at' with
  | acquire =>
    apply h.acquire hs
    simp [hpc, Pc.phase]
  | sleep pc =>
    simp only [State.waitStep] at hs
    obtain ⟨hlock, hholds, pc', hpc', hback⟩ := State.sleepStep_frame hs
    refine h.frame hlock hholds hpc' ?_
    obtain rfl | ⟨at', rfl⟩ := hback
    · simp [hpc, Pc.phase]
    · simp [hpc, Pc.phase]
  | release =>
    cases hs
    apply h.release
    simp [hpc, Pc.phase]

theorem killStep (h : Owned s) {target : Option P} {at' : KillPc}
    (hpc : s.pc q = .kill target at') (hs : s.killStep q target at' = some s') : Owned s' := by
  cases at' with
  | acquire =>
    apply h.acquire hs
    simp [hpc, Pc.phase]
  | mark =>
    cases hs
    refine h.frame (q := q) (n := .kill target .release) ?_ ?_ ?_ ?_
    · cases target <;> rfl
    · cases target <;> rfl
    · cases target <;> rfl
    · simp [hpc, Pc.phase]
  | release =>
    cases hs
    apply h.release
    simp [hpc, Pc.phase]

omit [DecidableEq κ] in
theorem call (h : Owned s) (hs : s.call q n = some s') (hphase : ∀ l, n.phase l = .out) :
    Owned s' := by
  unfold State.call at hs
  split at hs
  · rename_i hidle
    cases hs
    refine h.frame rfl rfl rfl fun l => ?_
    rw [hidle]
    exact hphase l
  · cases hs

/-- One step. -/
theorem step (h : Owned s) (hheld : Held s) {a : Action P ι κ} (hs : step s a = some s') :
    Owned s' := by
  cases a with
  | acquiresleep q l => exact h.call hs (fun _ => rfl)
  | releasesleep q l =>
    simp only [SleepLocks.step, State.call] at hs
    split at hs
    · rename_i hholds
      split at hs
      · rename_i hidle
        cases hs
        exact h.releasing hidle hholds
      · cases hs
    · cases hs
  | wait q chan lk => exact h.call hs (fun _ => rfl)
  | wakeup q chan => exact h.call hs (fun _ => rfl)
  | kill q target => exact h.call hs (fun _ => rfl)
  | run q =>
    simp only [SleepLocks.step] at hs
    cases hpc : s.pc q with
    | idle =>
      rw [hpc] at hs
      cases hs
    | acquiresleep l pc =>
      rw [hpc] at hs
      exact h.acquiresleepStep hheld hpc hs
    | releasesleep l pc =>
      rw [hpc] at hs
      exact h.releasesleepStep hpc hs
    | wait chan lk pc =>
      rw [hpc] at hs
      exact h.waitStep hpc hs
    | wakeup chan pc =>
      rw [hpc] at hs
      obtain ⟨hlock, hholds, pc', hpc', hback⟩ := State.wakeStep_frame hs
      refine h.frame hlock hholds hpc' ?_
      obtain rfl | ⟨at', rfl⟩ := hback
      · simp [hpc, Pc.phase]
      · simp [hpc, Pc.phase]
    | kill target pc =>
      rw [hpc] at hs
      exact h.killStep hpc hs

end Owned

/-! ## Who sleeps -/

/-- The positions of `sleep` at which a process is off the CPU, or about to leave it. -/
def SleepPc.Off : SleepPc → Prop
  | .sched | .asleep => True
  | _ => False

/-- The positions of `sleep` from its call to the end of the sleep. -/
def SleepPc.Waiting : SleepPc → ProcState → Prop
  | .acquire, _ | .release, _ | .mark, _ | .sched, _ => True
  | .asleep, st => st = .sleeping
  | _, _ => False

/-- A process at the position sleeps on a channel. -/
def Pc.Down : Pc P ι κ → Chan ι κ → Prop
  | .acquiresleep l (.sleep pc), c => pc.Off ∧ c = .lk l
  | .wait chan _ (.sleep pc), c => pc.Off ∧ c = .other chan
  | _, _ => False

/-- A process in `acquiresleep` goes to sleep or is asleep. -/
def Pc.Waits (l : ι) : Pc P ι κ → ProcState → Prop
  | .acquiresleep m (.sleep pc), st => m = l ∧ pc.Waiting st
  | _, _ => False

/-- A process in `releasesleep` has cleared `locked` and not yet woken the sleepers. -/
def Pc.Owes (l : ι) : Pc P ι κ → Prop
  | .releasesleep m (.wakeup .acquire) | .releasesleep m (.wakeup .wake) => m = l
  | _ => False

/-- Who sleeps, sleeps with reason. -/
structure Asleep (s : State P ι κ) : Prop where
  /-- A process sleeps in a call of `sleep`, on the channel of the call. -/
  chan : ∀ q, s.state q = .sleeping → ∃ c, (s.pc q).Down c ∧ s.chan q = some c
  /-- The lock a process waits for is held, or its sleepers are about to be woken. -/
  reason : ∀ q l, (s.pc q).Waits l (s.state q) →
    (s.lock l).locked = 1 ∨ ∃ r, (s.pc r).Owes l

omit [DecidableEq P] [DecidableEq ι] [DecidableEq κ] in
/-- A process that waits does so while its state allows it. -/
theorem Pc.Waits.of_sleeping {l : ι} {pc : Pc P ι κ} {st st' : ProcState}
    (h : pc.Waits l st) (hst : st = .sleeping → st' = .sleeping) : pc.Waits l st' := by
  unfold Pc.Waits at *
  split at h
  · refine ⟨h.1, ?_⟩
    have hwaiting := h.2
    unfold SleepPc.Waiting at *
    split <;> simp_all
  · exact h

omit [DecidableEq P] [DecidableEq ι] [DecidableEq κ] in
/-- A waiting process sleeps on the sleep lock. -/
theorem Pc.Waits.chan_eq {l : ι} {pc : Pc P ι κ} {st : ProcState} {c : Chan ι κ}
    (h : pc.Waits l st) (hdown : pc.Down c) : c = .lk l := by
  unfold Pc.Waits at h
  split at h
  · rw [← h.1]
    exact hdown.2
  · exact h.elim

omit [DecidableEq P] [DecidableEq ι] [DecidableEq κ] in
/-- A process asleep on a sleep lock waits for it. -/
theorem Pc.Down.waits {l : ι} {pc : Pc P ι κ} (h : pc.Down (.lk l)) : pc.Waits l .sleeping := by
  unfold Pc.Down at h
  split at h
  · rename_i m at'
    obtain ⟨hoff, hm⟩ := h
    refine ⟨by simpa using hm.symm, ?_⟩
    cases at' <;> simp_all [SleepPc.Off, SleepPc.Waiting]
  · simp at h
  · exact h.elim

namespace Asleep

variable {s s' : State P ι κ} {q : P} {l : ι} {n : Pc P ι κ}

omit [DecidableEq P] [DecidableEq ι] [DecidableEq κ] in
/-- A process that takes steps is not asleep. -/
theorem awake (h : Asleep s) (hdown : ∀ c, ¬ (s.pc q).Down c) : s.state q ≠ .sleeping := by
  intro hq
  obtain ⟨c, hc, -⟩ := h.chan q hq
  exact hdown c hc

omit [DecidableEq ι] [DecidableEq κ] in
/-- A step that leaves the sleep locks alone and does not skip a `wakeup`. -/
theorem frame (h : Asleep s) (hlock : s'.lock = s.lock)
    (hpc : s'.pc = Function.update s.pc q n)
    (hstate : ∀ r, r ≠ q → s'.state r = .sleeping →
      s.state r = .sleeping ∧ s'.chan r = s.chan r)
    (hdown : s'.state q = .sleeping → ∃ c, n.Down c ∧ s'.chan q = some c)
    (howes : ∀ l, (s.pc q).Owes l → n.Owes l)
    (hwaits : ∀ l, n.Waits l (s'.state q) →
      (s.pc q).Waits l (s.state q) ∨ (s.lock l).locked = 1) : Asleep s' := by
  constructor
  · intro r hr
    by_cases hrq : r = q
    · subst hrq
      simpa [hpc] using hdown hr
    · obtain ⟨hold, hchan⟩ := hstate r hrq hr
      rw [hpc, Function.update_of_ne hrq, hchan]
      exact h.chan r hold
  · intro r l hr
    have hold : (s.pc r).Waits l (s.state r) ∨ (s.lock l).locked = 1 := by
      by_cases hrq : r = q
      · subst hrq
        exact hwaits l (by simpa [hpc] using hr)
      · rw [hpc, Function.update_of_ne hrq] at hr
        exact .inl (hr.of_sleeping fun hs => (hstate r hrq hs).1)
    rw [hlock]
    obtain hold | hlocked := hold
    · obtain hlocked | ⟨t, ht⟩ := h.reason r l hold
      · exact .inl hlocked
      · refine .inr ⟨t, ?_⟩
        rw [hpc, Function.update_apply]
        split_ifs with htq
        · exact howes l (htq ▸ ht)
        · exact ht
    · exact .inl hlocked

omit [DecidableEq ι] [DecidableEq κ] in
/-- A step of a process that is not asleep and neither waits nor owes a `wakeup`. -/
theorem move (h : Asleep s) (hlock : s'.lock = s.lock)
    (hpc : s'.pc = Function.update s.pc q n) (hdown : ∀ c, ¬ (s.pc q).Down c)
    (hstate : ∀ r, s'.state r = .sleeping → s.state r = .sleeping)
    (hchan : s'.chan = s.chan) (howes : ∀ l, (s.pc q).Owes l → n.Owes l)
    (hwaits : ∀ l, n.Waits l (s'.state q) →
      (s.pc q).Waits l (s.state q) ∨ (s.lock l).locked = 1) : Asleep s' := by
  refine h.frame hlock hpc ?_ ?_ howes hwaits
  · exact fun r _ hr => ⟨hstate r hr, by rw [hchan]⟩
  · exact fun hq => absurd (hstate q hq) (h.awake hdown)

/-- `acquire`. -/
theorem acquire (h : Asleep s) {k : Spin ι κ} (hs : s.acquire k q n = some s')
    (hdown : ∀ c, ¬ (s.pc q).Down c) (howes : ∀ l, (s.pc q).Owes l → n.Owes l)
    (hwaits : ∀ l, n.Waits l (s.state q) →
      (s.pc q).Waits l (s.state q) ∨ (s.lock l).locked = 1) : Asleep s' := by
  cases State.acquire_eq hs
  exact h.move rfl rfl hdown (fun _ => id) rfl howes hwaits

/-- `sleep`, of a process that waits as long as the call says. -/
theorem sleepStep (h : Asleep s) {chan : Chan ι κ} {lk : Spin ι κ} {here : SleepPc → Pc P ι κ}
    {back : Pc P ι κ} {at' : SleepPc} (hpc : s.pc q = here at')
    (hs : s.sleepStep q chan lk here back at' = some s')
    (hdown : ∀ pc c, (here pc).Down c ↔ pc.Off ∧ c = chan) {W : ι → Prop}
    (hwaits : ∀ pc l st, (here pc).Waits l st ↔ W l ∧ pc.Waiting st)
    (howes : ∀ pc l, ¬ (here pc).Owes l) (hback : ∀ l st, ¬ back.Waits l st) : Asleep s' := by
  have hidle : ¬ at'.Off → ∀ c, ¬ (s.pc q).Down c := by
    intro hoff c hc
    rw [hpc, hdown] at hc
    exact hoff hc.1
  have hnoOwes : ∀ l, ¬ (s.pc q).Owes l := fun l => hpc ▸ howes at' l
  cases at' with
  | acquire =>
    apply h.acquire hs (hidle id)
    · exact fun l hl => absurd hl (hnoOwes l)
    · exact fun l hl => .inl (by simpa [hpc, hwaits, SleepPc.Waiting] using hl)
  | release =>
    cases hs
    refine h.move (n := here .mark) rfl rfl (hidle id) (fun _ => id) rfl ?_ ?_
    · exact fun l hl => absurd hl (hnoOwes l)
    · exact fun l hl => .inl (by simpa [hpc, hwaits, SleepPc.Waiting] using hl)
  | mark =>
    cases hs
    refine h.frame (q := q) (n := here .sched) rfl rfl ?_ ?_ ?_ ?_
    · intro r hrq hr
      simp only [State.goto, Function.update_of_ne hrq] at hr ⊢
      exact ⟨hr, trivial⟩
    · intro _
      exact ⟨chan, (hdown _ _).mpr ⟨trivial, rfl⟩, by simp [State.goto]⟩
    · exact fun l hl => absurd hl (hnoOwes l)
    · exact fun l hl => .inl (by simpa [hpc, hwaits, SleepPc.Waiting] using hl)
  | sched =>
    cases hs
    refine h.frame (q := q) (n := here .asleep) rfl rfl (fun _ _ hr => ⟨hr, rfl⟩) ?_ ?_ ?_
    · intro hq
      obtain ⟨c, hc, hchan⟩ := h.chan q hq
      rw [hpc, hdown] at hc
      exact ⟨c, (hdown _ _).mpr ⟨trivial, hc.2⟩, hchan⟩
    · exact fun l hl => absurd hl (hnoOwes l)
    · intro l hl
      rw [hwaits] at hl
      exact .inl (by simp [hpc, hwaits, SleepPc.Waiting, hl.1])
  | asleep =>
    simp only [State.sleepStep] at hs
    split at hs
    · cases State.acquire_eq hs
      refine h.frame (q := q) (n := here .tidy) rfl rfl ?_ ?_ ?_ ?_
      · intro r hrq hr
        simp only [State.goto, Function.update_of_ne hrq] at hr
        exact ⟨hr, rfl⟩
      · intro hq
        simp [State.goto] at hq
      · exact fun l hl => absurd hl (hnoOwes l)
      · simp [hwaits, SleepPc.Waiting]
    · cases hs
  | tidy =>
    cases hs
    have hawake := h.awake (hidle id)
    refine h.frame (q := q) rfl rfl ?_ ?_ ?_ ?_
    · intro r hrq hr
      simp only [State.goto, Function.update_of_ne hrq]
      exact ⟨hr, trivial⟩
    · exact fun hq => absurd hq hawake
    · exact fun l hl => absurd hl (hnoOwes l)
    · intro l hl
      split at hl
      · simp [hwaits, SleepPc.Waiting] at hl
      · exact absurd hl (hback _ _)
  | awake =>
    cases hs
    refine h.move (n := here .reacquire) rfl rfl (hidle id) (fun _ => id) rfl ?_ ?_
    · exact fun l hl => absurd hl (hnoOwes l)
    · simp [hwaits, SleepPc.Waiting]
  | reacquire =>
    apply h.acquire hs (hidle id)
    · exact fun l hl => absurd hl (hnoOwes l)
    · exact fun l hl => absurd hl (hback _ _)

/-- `wakeup`, called by anyone but `releasesleep`. -/
theorem wakeStep (h : Asleep s) {chan : Chan ι κ} {at' : WakePc}
    (hpc : s.pc q = .wakeup chan at')
    (hs : s.wakeStep q chan (.wakeup chan) .idle at' = some s') : Asleep s' := by
  cases at' with
  | acquire => apply h.acquire hs <;> simp [hpc, Pc.Down, Pc.Owes, Pc.Waits]
  | wake =>
    cases hs
    refine h.move (q := q) (n := .wakeup chan .release) rfl rfl ?_ ?_ rfl ?_ ?_
    · simp [hpc, Pc.Down]
    · intro r hr
      simp only [State.goto, State.wakeup1] at hr
      split at hr
      · cases hr
      · exact hr
    · simp [hpc, Pc.Owes]
    · simp [Pc.Waits]
  | release =>
    cases hs
    refine h.move (q := q) (n := .idle) rfl rfl ?_ (fun _ => id) rfl ?_ ?_
    · simp [hpc, Pc.Down]
    · simp [hpc, Pc.Owes]
    · simp [Pc.Waits]

omit [DecidableEq κ] in
/-- The sleep lock is taken. -/
theorem lock (h : Asleep s) (hpc : s.pc q = .acquiresleep l .lock) :
    Asleep ({ s with lock := Function.update s.lock l ⟨1, s.pid q⟩ }.goto q
      (.acquiresleep l .release)) := by
  have hmoved : Asleep (s.goto q (.acquiresleep l .release)) := by
    refine h.move (q := q) rfl rfl ?_ (fun _ => id) rfl ?_ ?_ <;>
      simp [hpc, Pc.Down, Pc.Owes, Pc.Waits]
  refine ⟨hmoved.chan, fun r m hr => ?_⟩
  by_cases hm : m = l
  · exact .inl (by simp [State.goto, hm])
  · obtain hlocked | howes := hmoved.reason r m hr
    · exact .inl (by simpa [State.goto, hm] using hlocked)
    · exact .inr howes

omit [DecidableEq κ] in
/-- The sleep lock is freed; its sleepers will be woken. -/
theorem unlock (h : Asleep s) (hpc : s.pc q = .releasesleep l .unlock) :
    Asleep ({ s with lock := Function.update s.lock l ⟨0, 0⟩ }.goto q
      (.releasesleep l (.wakeup .acquire))) := by
  have hmoved : Asleep (s.goto q (.releasesleep l (.wakeup .acquire))) := by
    refine h.move (q := q) rfl rfl ?_ (fun _ => id) rfl ?_ ?_ <;>
      simp [hpc, Pc.Down, Pc.Owes, Pc.Waits]
  refine ⟨hmoved.chan, fun r m hr => ?_⟩
  by_cases hm : m = l
  · exact .inr ⟨q, by simp [State.goto, Pc.Owes, hm]⟩
  · obtain hlocked | howes := hmoved.reason r m hr
    · exact .inl (by simpa [State.goto, hm] using hlocked)
    · exact .inr howes

omit [DecidableEq P] [DecidableEq ι] [DecidableEq κ] in
/-- A waiting process that is not asleep holds one of the two spin locks. -/
theorem holds_of_waits {st : ProcState} (hwaits : n.Waits l st) :
    st = .sleeping ∨ n.Holds (.lk l) ∨ n.Holds .ptable := by
  unfold Pc.Waits at hwaits
  split at hwaits
  · rename_i m at'
    obtain ⟨rfl, hwaiting⟩ := hwaits
    cases at' <;> simp_all [SleepPc.Waiting, Pc.Holds, SleepPc.Holds]
  · exact hwaits.elim

/-- The sleepers are woken. Nobody is on the way to sleep, for the two spin locks are held. -/
theorem wake (h : Asleep s) (hheld : Held s)
    (hpc : s.pc q = .releasesleep l (.wakeup .wake)) :
    Asleep ((s.wakeup1 (.lk l)).goto q (.releasesleep l (.wakeup .release))) := by
  have hlk : (s.pc q).Holds (.lk l) := by simp [hpc, Pc.Holds]
  have hptable : (s.pc q).Holds .ptable := by simp [hpc, Pc.Holds, WakePc.Holds]
  have hstate : ∀ r, (s.wakeup1 (.lk l)).state r = .sleeping →
      s.state r = .sleeping ∧ s.chan r ≠ some (.lk l) := by
    intro r hr
    simp only [State.wakeup1] at hr
    split at hr
    · cases hr
    · rename_i hne
      exact ⟨hr, fun hchan => hne ⟨hr, hchan⟩⟩
  constructor
  · intro r hr
    obtain ⟨hsleep, -⟩ := hstate r hr
    have hrq : r ≠ q := by
      rintro rfl
      exact h.awake (by simp [hpc, Pc.Down]) hsleep
    simpa [State.goto, State.wakeup1, hrq] using h.chan r hsleep
  · intro r m hr
    have hrq : r ≠ q := by
      rintro rfl
      simp [State.goto, Pc.Waits] at hr
    simp only [State.goto, Function.update_of_ne hrq] at hr
    have hold : (s.pc r).Waits m (s.state r) := hr.of_sleeping fun hsleep => (hstate r hsleep).1
    obtain hlocked | ⟨t, ht⟩ := h.reason r m hold
    · exact .inl hlocked
    · by_cases htq : t = q
      · subst htq
        have hm : m = l := by simpa [hpc, Pc.Owes, eq_comm] using ht
        subst hm
        obtain hsleep | hholds | hholds := holds_of_waits hr
        · obtain ⟨c, hc, hchan⟩ := h.chan r (hstate r hsleep).1
          exact absurd (hr.chan_eq hc ▸ hchan) (hstate r hsleep).2
        · exact absurd (hheld.unique hholds hlk) hrq
        · exact absurd (hheld.unique hholds hptable) hrq
      · exact .inr ⟨t, by simpa [State.goto, State.wakeup1, htq] using ht⟩

theorem acquiresleepStep (h : Asleep s) (howned : Owned s) {at' : AcquirePc}
    (hpc : s.pc q = .acquiresleep l at') (hs : s.acquiresleepStep q l at' = some s') :
    Asleep s' := by
  cases at' with
  | acquire => apply h.acquire hs <;> simp [hpc, Pc.Down, Pc.Owes, Pc.Waits]
  | test =>
    cases hs
    refine h.move (q := q) rfl rfl ?_ (fun _ => id) rfl ?_ ?_
    · simp [hpc, Pc.Down]
    · simp [hpc, Pc.Owes]
    · intro m hm
      split_ifs at hm with hlocked
      · obtain rfl : l = m := hm.1
        exact .inr ((howned.locked l).resolve_left hlocked)
      · exact hm.elim
  | sleep pc =>
    simp only [State.acquiresleepStep] at hs
    exact h.sleepStep hpc hs (fun _ _ => Iff.rfl) (W := (l = ·)) (fun _ _ _ => Iff.rfl)
      (fun _ _ => id) (fun _ _ => id)
  | lock =>
    cases hs
    exact h.lock hpc
  | release =>
    cases hs
    refine h.move (q := q) (n := .idle) rfl rfl ?_ (fun _ => id) rfl ?_ ?_ <;>
      simp [hpc, Pc.Down, Pc.Owes, Pc.Waits]

theorem releasesleepStep (h : Asleep s) (hheld : Held s) {at' : ReleasePc}
    (hpc : s.pc q = .releasesleep l at') (hs : s.releasesleepStep q l at' = some s') :
    Asleep s' := by
  cases at' with
  | acquire => apply h.acquire hs <;> simp [hpc, Pc.Down, Pc.Owes, Pc.Waits]
  | unlock =>
    cases hs
    exact h.unlock hpc
  | wakeup pc =>
    simp only [State.releasesleepStep] at hs
    cases pc with
    | acquire => apply h.acquire hs <;> simp [hpc, Pc.Down, Pc.Owes, Pc.Waits]
    | wake =>
      cases hs
      exact h.wake hheld hpc
    | release =>
      cases hs
      refine h.move (q := q) (n := .releasesleep l .release) rfl rfl ?_ (fun _ => id) rfl ?_ ?_
        <;> simp [hpc, Pc.Down, Pc.Owes, Pc.Waits]
  | release =>
    cases hs
    refine h.move (q := q) (n := .idle) rfl rfl ?_ (fun _ => id) rfl ?_ ?_ <;>
      simp [hpc, Pc.Down, Pc.Owes, Pc.Waits]

theorem waitStep (h : Asleep s) {chan : κ} {lk : Option κ} {at' : WaitPc}
    (hpc : s.pc q = .wait chan lk at') (hs : s.waitStep q chan lk at' = some s') :
    Asleep s' := by
  cases at' with
  | acquire => apply h.acquire hs <;> simp [hpc, Pc.Down, Pc.Owes, Pc.Waits]
  | sleep pc =>
    simp only [State.waitStep] at hs
    exact h.sleepStep hpc hs (fun _ _ => Iff.rfl) (W := fun _ => False)
      (fun _ _ _ => by simp [Pc.Waits]) (fun _ _ => id) (fun _ _ => id)
  | release =>
    cases hs
    refine h.move (q := q) (n := .idle) rfl rfl ?_ (fun _ => id) rfl ?_ ?_ <;>
      simp [hpc, Pc.Down, Pc.Owes, Pc.Waits]

theorem killStep (h : Asleep s) {target : Option P} {at' : KillPc}
    (hpc : s.pc q = .kill target at') (hs : s.killStep q target at' = some s') : Asleep s' := by
  cases at' with
  | acquire => apply h.acquire hs <;> simp [hpc, Pc.Down, Pc.Owes, Pc.Waits]
  | mark =>
    cases hs
    refine h.move (q := q) (n := .kill target .release) ?_ ?_ ?_ ?_ ?_ ?_ ?_
    · cases target <;> rfl
    · cases target <;> rfl
    · simp [hpc, Pc.Down]
    · intro r hr
      cases target with
      | none => exact hr
      | some p =>
        simp only [State.goto, State.mark, Function.update_apply] at hr
        split_ifs at hr with hrp hsleep
        · exact absurd (hrp ▸ hr) hsleep
        · exact hr
    · cases target <;> rfl
    · simp [hpc, Pc.Owes]
    · simp [Pc.Waits]
  | release =>
    cases hs
    refine h.move (q := q) (n := .idle) rfl rfl ?_ (fun _ => id) rfl ?_ ?_ <;>
      simp [hpc, Pc.Down, Pc.Owes, Pc.Waits]

omit [DecidableEq ι] [DecidableEq κ] in
theorem call (h : Asleep s) (hs : s.call q n = some s') (hwaits : ∀ l st, ¬ n.Waits l st) :
    Asleep s' := by
  unfold State.call at hs
  split at hs
  · rename_i hidle
    cases hs
    refine h.move rfl rfl ?_ (fun _ => id) rfl ?_ ?_
    · intro c
      rw [hidle]
      exact id
    · intro l hl
      rw [hidle] at hl
      exact hl.elim
    · exact fun l hl => absurd hl (hwaits l _)
  · cases hs

/-- One step. -/
theorem step (h : Asleep s) (hheld : Held s) (howned : Owned s) {a : Action P ι κ}
    (hs : step s a = some s') : Asleep s' := by
  cases a with
  | acquiresleep q l => exact h.call hs (fun _ _ => id)
  | releasesleep q l =>
    simp only [SleepLocks.step] at hs
    split at hs
    · exact h.call hs (fun _ _ => id)
    · cases hs
  | wait q chan lk => exact h.call hs (fun _ _ => id)
  | wakeup q chan => exact h.call hs (fun _ _ => id)
  | kill q target => exact h.call hs (fun _ _ => id)
  | run q =>
    simp only [SleepLocks.step] at hs
    cases hpc : s.pc q with
    | idle =>
      rw [hpc] at hs
      cases hs
    | acquiresleep l pc =>
      rw [hpc] at hs
      exact h.acquiresleepStep howned hpc hs
    | releasesleep l pc =>
      rw [hpc] at hs
      exact h.releasesleepStep hheld hpc hs
    | wait chan lk pc =>
      rw [hpc] at hs
      exact h.waitStep hpc hs
    | wakeup chan pc =>
      rw [hpc] at hs
      exact h.wakeStep hpc hs
    | kill target pc =>
      rw [hpc] at hs
      exact h.killStep hpc hs

end Asleep

/-! ## Runs -/

/-- The three invariants. -/
structure Sound (s : State P ι κ) : Prop where
  /-- The spin locks. -/
  held : Held s
  /-- The sleep locks. -/
  owned : Owned s
  /-- The sleepers. -/
  asleep : Asleep s

omit [DecidableEq P] [DecidableEq κ] in
theorem Initial.sound {s : State P ι κ} (h : Initial s) : Sound s where
  held := ⟨by simp [h.spin, h.pc, Pc.Holds], by simp [h.pc, Pc.Wf]⟩
  owned := by
    constructor <;> simp [h.lock, h.pc, h.holds, State.Keeps, Pc.phase]
  asleep := ⟨fun q hq => absurd hq (h.state q), by simp [h.pc, Pc.Waits]⟩

/-- Every run keeps the invariants. -/
theorem sound_of_run {init s : State P ι κ} (hinit : Initial init)
    {trace : List (Action P ι κ)} (hrun : Run step free init trace s) : Sound s := by
  refine hrun.invariant (I := fun _ s => Sound s) hinit.sound ?_
  intro _ s a s' hs _ hstep
  exact ⟨hs.held.step hstep, hs.owned.step hs.held hstep,
    hs.asleep.step hs.held hs.owned hstep⟩

omit [DecidableEq P] [DecidableEq κ] in
/-- A process that holds a sleep lock keeps it, or has just freed it. -/
theorem Sound.holder_unique {s : State P ι κ} (h : Sound s) {q r : P} {l : ι}
    (hq : s.holds q l = true) (hr : s.holds r l = true) : q = r := by
  have hfreed : ∀ {t : P}, s.holds t l = true → ¬ s.Keeps t l →
      (s.pc t).phase l = .unlocked := by
    intro t ht hkeeps
    by_contra hne
    exact hkeeps (.inr ⟨ht, hne⟩)
  by_cases hqk : s.Keeps q l <;> by_cases hrk : s.Keeps r l
  · exact h.owned.unique q r l hqk hrk
  · have hfree := h.owned.free r l (.inr (hfreed hr hrk))
    exact absurd hqk (h.owned.not_keeps hfree q)
  · have hfree := h.owned.free q l (.inr (hfreed hq hqk))
    exact absurd hrk (h.owned.not_keeps hfree r)
  · exact h.held.unique (Owned.holds_lk (.inr (hfreed hq hqk)))
      (Owned.holds_lk (.inr (hfreed hr hrk)))

/-- **Sleep locks exclude each other and strand nobody.** In every run at most one process is
between a completed `acquiresleep` and the end of its `releasesleep`, and who sleeps on a
sleep lock while the two spin locks are free sleeps on a lock that is held. -/
theorem exclusive_and_stranding_free {init s : State P ι κ} (hinit : Initial init)
    {trace : List (Action P ι κ)} (hrun : Run step free init trace s) (l : ι) :
    (∀ q r, s.holds q l = true → s.holds r l = true → q = r) ∧
      (s.spin (.lk l) = none → s.spin .ptable = none →
        ∀ q, s.state q = .sleeping → s.chan q = some (.lk l) → (s.lock l).locked = 1) := by
  have hsound := sound_of_run hinit hrun
  refine ⟨fun q r => hsound.holder_unique, fun hlk hptable q hsleep hchan => ?_⟩
  have hfree : ∀ r, ¬ (s.pc r).Holds (.lk l) := by
    intro r hr
    rw [← hsound.held.holder, hlk] at hr
    cases hr
  have hwaits : (s.pc q).Waits l (s.state q) := by
    obtain ⟨c, hc, hcq⟩ := hsound.asleep.chan q hsleep
    obtain rfl : c = .lk l := Option.some.inj (hcq.symm.trans hchan)
    rw [hsleep]
    exact hc.waits
  obtain hlocked | ⟨r, hr⟩ := hsound.asleep.reason q l hwaits
  · exact hlocked
  · refine absurd ?_ (hfree r)
    unfold Pc.Owes at hr
    split at hr <;> simp_all [Pc.Holds]

/-- Two processes and a free sleep lock. -/
def twoInit : State (Fin 2) Unit Unit :=
  ⟨fun _ => ⟨0, 0⟩, fun _ => none, fun _ => .running, fun _ => none, fun _ => false,
    fun q => q + 1, fun _ => .idle, fun _ _ => false⟩

/-- The first process takes the lock, and the second falls asleep on it. -/
def twoActions : List (Action (Fin 2) Unit Unit) :=
  [.acquiresleep 0 (), .run 0, .run 0, .run 0, .run 0] ++
    [.acquiresleep 1 (), .run 1, .run 1, .run 1, .run 1, .run 1, .run 1]

theorem exclusive_and_stranding_free_two :
    ∃ s, Run step free twoInit twoActions.reverse s ∧
      s.state 1 = .sleeping ∧ (s.lock ()).locked = 1 := by
  have hexec : (exec step free [] twoInit twoActions).any (fun s =>
      s.spin (.lk ()) = none ∧ s.spin .ptable = none ∧ s.state 1 = .sleeping ∧
        s.chan 1 = some (.lk ())) = true := by decide +kernel
  obtain ⟨s, hs, hend⟩ := (Option.any_eq_true _ _).mp hexec
  obtain ⟨hlk, hptable, hsleep, hchan⟩ := of_decide_eq_true hend
  have hinit : Initial twoInit := by constructor <;> simp [twoInit]
  have hrun := run_of_exec hs
  exact ⟨s, hrun, hsleep,
    (exclusive_and_stranding_free hinit hrun ()).2 hlk hptable 1 hsleep hchan⟩

end Xv6.SleepLocks
