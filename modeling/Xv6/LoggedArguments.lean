import Xv6.Lib.GuardedRun
import Xv6.SyscallHistory

/-!
# Arguments logged by system calls

A call of `sys_read` writes its arguments to the entry that will be recorded next, works,
possibly sleeping for long, and is recorded by `syscall()` only when it returns. The system
below interleaves the calls of any number of processes, one lock-protected section of
`syscalls_history` a step. It tells under which runs every recorded entry has the rows of its
own call.
-/

namespace Xv6.LoggedArguments

open GuardedRun SyscallsHistory

/-- The bytes of a string literal, followed by NULs. -/
def cString (s : String) : ℕ → UInt8 := fun i => (s.toList[i]?).elim 0 fun c => c.val.toUInt8

/-- The loop of `itoa`, from a given index on; `fuel` bounds its rounds by the number. -/
def itoaLoop (fuel num index : ℕ) (string : ℕ → UInt8) : ℕ → UInt8 :=
  match fuel with
  | 0 => fun i => if i = index then 0 else string i
  | fuel + 1 =>
      if 0 < num then
        itoaLoop fuel (num / 10) (index + 1)
          fun i => if i = index then (num % 10).toUInt8 + 48 else string i
      else fun i => if i = index then 0 else string i

/-- `itoa`: the decimal digits, the lowest first. A negative number has no digits. -/
def itoa (string : ℕ → UInt8) (num : ℤ) : ℕ → UInt8 := itoaLoop num.toNat num.toNat 0 string

/-- What a system call does to the history and to `temp` before its work. -/
inductive LogStep
  /-- `set_last_syscall_info` on a string of its own. -/
  | info (input : ℕ → UInt8)
  /-- `itoa` into `temp`, which takes no lock. -/
  | itoa (num : ℤ)
  /-- `set_last_syscall_info(temp)`. -/
  | infoTemp

/-- `sys_read` between its argument checks and `fileread`, for a buffer holding `p` and a
length `n`. -/
def sysReadSteps (p : ℕ → UInt8) (n : ℤ) : List LogStep :=
  [.info (cString "fd: "), .info (cString "Inode"), .info (cString "ptr: "), .info p,
    .info (cString "int"), .itoa n, .infoTemp]

/-- Where a process is: in user mode, or in a system call with the steps still to do and the
strings it has passed to `set_last_syscall_info`. -/
inductive Thread
  | user
  | call (num : ℕ) (todo : List LogStep) (logged : List (ℕ → UInt8))

/-- The strings the current call has logged. -/
def Thread.logged : Thread → List (ℕ → UInt8)
  | .user => []
  | .call _ _ logged => logged

/-- The calls of `set_last_syscall_info` the current call has still to make. -/
def Thread.pending : Thread → ℕ
  | .user => 0
  | .call _ todo _ => (todo.filter fun s => match s with | .itoa _ => false | _ => true).length

/-- The state: the shared variables and the processes. `origin` is a history variable: the
strings that the call recorded in an entry had logged. -/
structure State (P : Type*) where
  /-- `syscalls_history`. -/
  history : SyscallsHistory
  /-- The buffer `temp` of `sysfile.c`. -/
  temp : ℕ → UInt8
  /-- The processes. -/
  thread : P → Thread
  /-- What the calls recorded in the entries had logged. -/
  origin : ℕ → List (ℕ → UInt8)

/-- The steps of the processes. -/
inductive Action (P : Type*)
  /-- `sys_read` passes its argument checks. -/
  | enterRead (p : P) (buf : ℕ → UInt8) (n : ℤ)
  /-- Any other system call is entered, or a `sys_read` that fails its checks. -/
  | enterOther (p : P) (num : ℕ)
  /-- The next step of `sys_read` on the history or on `temp`. -/
  | log (p : P)
  /-- The handler returns and `syscall()` calls `register_syscall`. -/
  | complete (p : P) (c : Call)

variable {P : Type*} [DecidableEq P]

/-- Replace the state of one process. -/
def State.setThread (s : State P) (p : P) (th : Thread) : State P :=
  { s with thread := fun q => if q = p then th else s.thread q }

/-- The index an entry had before `register_syscall` recorded a call, if it compacts. -/
def movedFrom (h : SyscallsHistory) (i : ℕ) : ℕ :=
  if rsCountMax ≤ h.rscount + 1 ∧ i < keep then i + keep else i

/-- `register_syscall` for a call that logged `logged`; `origin` follows the entries. -/
def State.register (s : State P) (c : Call) (logged : List (ℕ → UInt8)) : State P :=
  { s with
    history := s.history.register c
    origin := fun i =>
      if movedFrom s.history i = s.history.rscount then logged
      else s.origin (movedFrom s.history i) }

/-- One step of a process; `none` if it is not the process's next one, or undefined in C. -/
def step (s : State P) : Action P → Option (State P)
  | .enterRead p buf n =>
      match s.thread p with
      | .user => some (s.setThread p (.call sysRead (sysReadSteps buf n) []))
      | _ => none
  | .enterOther p num =>
      match s.thread p with
      | .user => if Dispatchable num then some (s.setThread p (.call num [] [])) else none
      | _ => none
  | .log p =>
      match s.thread p with
      | .call num (.info input :: todo) logged =>
          (s.history.setLastSyscallInfo input).map fun h =>
            { s with history := h }.setThread p (.call num todo (logged ++ [input]))
      | .call num (.itoa n :: todo) logged =>
          some ({ s with temp := itoa s.temp n }.setThread p (.call num todo logged))
      | .call num (.infoTemp :: todo) logged =>
          (s.history.setLastSyscallInfo s.temp).map fun h =>
            { s with history := h }.setThread p (.call num todo (logged ++ [s.temp]))
      | _ => none
  | .complete p c =>
      match s.thread p with
      | .call num [] logged =>
          if c.id = num then some ((s.register c logged).setThread p .user) else none
      | _ => none

/-- After boot: empty history, `temp` as `sysfile.c` initialises it, all processes in user
mode. -/
def init : State P := ⟨.init, cString "123456789", fun _ => .user, fun _ => []⟩

/-! ## One section on the history -/

/-- An entry has exactly the given strings as its rows: their number, and in each row the
bytes that the copying loop takes from its string. -/
def Matches (e : SyscallInfo) (rows : List (ℕ → UInt8)) : Prop :=
  e.argsC = rows.length ∧ ∀ (j : Fin 10) (input : ℕ → UInt8), rows[j.val]? = some input →
    ∀ k : Fin 10, k.val < argLength input → e.args j k = input k

/-- An entry without arguments matches the empty list. -/
theorem matches_nil {e : SyscallInfo} : Matches e [] ↔ e.argsC = 0 := by
  simp [Matches]

/-- What a call of `set_last_syscall_info` does: it appends its string to the rows of the
next entry and touches no other entry. -/
theorem setLastSyscallInfo_spec {h h' : SyscallsHistory} {input : ℕ → UInt8}
    (hset : h.setLastSyscallInfo input = some h') :
    h'.rscount = h.rscount ∧ (∀ i ≠ h.rscount, h'.sf i = h.sf i) ∧
      ∀ rows, Matches (h.sf h.rscount) rows → Matches (h'.sf h.rscount) (rows ++ [input]) := by
  unfold setLastSyscallInfo at hset
  split at hset
  · rename_i hrow
    obtain rfl := Option.some.inj hset
    refine ⟨rfl, fun i hi => by simp [modify_sf, hi], fun rows hrows => ?_⟩
    obtain ⟨hlen, hargs⟩ := hrows
    refine ⟨by simp [modify_sf, hlen], fun j out hout k hk => ?_⟩
    by_cases hj : j = ⟨(h.sf h.rscount).argsC, hrow⟩
    · have hindex : j.val = rows.length := by rw [hj, ← hlen]
      rw [hindex, List.getElem?_concat_length] at hout
      obtain rfl := Option.some.inj hout
      simp [modify_sf, hj, copyArg, hk]
    · have hne : j.val ≠ rows.length := fun h => hj (Fin.ext (by rw [h, ← hlen]))
      have hlt : j.val < rows.length := by
        by_contra hge
        rw [List.getElem?_eq_none (by simp; omega)] at hout
        cases hout
      rw [List.getElem?_append_left hlt] at hout
      simpa [modify_sf, hj] using hargs j out hout k hk
  · rename_i hrow
    split at hset
    · obtain rfl := Option.some.inj hset
      refine ⟨rfl, fun i hi => by simp [modify_sf, hi], fun rows hrows => ?_⟩
      obtain ⟨hlen, hargs⟩ := hrows
      refine ⟨by simp [modify_sf, hlen], fun j out hout k hk => ?_⟩
      rw [List.getElem?_append_left (by omega)] at hout
      simpa [modify_sf] using hargs j out hout k hk
    · cases hset

/-- The rows of an entry after `register_syscall`: they move with the entry. -/
theorem register_args (h : SyscallsHistory) (c : Call) (i : ℕ) :
    ((h.register c).sf i).args = (h.sf (movedFrom h i)).args := by
  unfold SyscallsHistory.register movedFrom
  by_cases hfull : rsCountMax ≤ h.rscount + 1
  · simp only [SyscallsHistory.modify, hfull, if_true, compact_sf, true_and]
    split_ifs <;> rfl
  · simp only [SyscallsHistory.modify, hfull, if_false, false_and]
    split_ifs <;> rfl

/-- The number of rows after `register_syscall`: it moves with the entry, except that a
compaction clears it above the next index. -/
theorem register_argsC (h : SyscallsHistory) (c : Call) (i : ℕ) :
    ((h.register c).sf i).argsC =
      if rsCountMax ≤ h.rscount + 1 ∧ keep + 2 ≤ i ∧ i < rsCountMax then 0
      else (h.sf (movedFrom h i)).argsC := by
  unfold SyscallsHistory.register movedFrom
  by_cases hfull : rsCountMax ≤ h.rscount + 1
  · have hsplit : keep + 2 ≤ i → ¬ i < keep := by omega
    simp only [SyscallsHistory.modify, hfull, if_true, compact_sf, true_and]
    split_ifs <;> first | rfl | omega
  · simp only [SyscallsHistory.modify, hfull, if_false, false_and]
    split_ifs <;> rfl

/-! ## Runs -/

/-- Every recorded entry has exactly the rows that its own call logged. -/
def ArgumentsMatch (s : State P) : Prop :=
  ∀ i < s.history.rscount, Matches (s.history.sf i) (s.origin i)

/-- Whenever a process is about to call `set_last_syscall_info`, the row it writes to is a
row of `args`. -/
def RowsInBounds (s : State P) : Prop :=
  ∀ p, 0 < (s.thread p).pending → (s.history.sf s.history.rscount).argsC < 10

/-- The steps that do not mix up arguments: while a call has logged arguments and is not yet
recorded no other call logs or is recorded, and the history is compacted only when the entry
above the new `rscount`, whose count is not cleared, has no arguments. -/
def Undisturbed (s : State P) : Action P → Prop
  | .log p => ∀ q, q ≠ p → (s.thread q).logged = []
  | .complete p _ =>
      (∀ q, q ≠ p → (s.thread q).logged = []) ∧
        (rsCountMax ≤ s.history.rscount + 1 → (s.history.sf (keep + 1)).argsC = 0)
  | _ => True

instance [Fintype P] (s : State P) : ∀ a, Decidable (Undisturbed s a)
  | .log p => inferInstanceAs (Decidable (∀ q, q ≠ p → (s.thread q).logged = []))
  | .complete p _ =>
      inferInstanceAs (Decidable ((∀ q, q ≠ p → (s.thread q).logged = []) ∧
        (rsCountMax ≤ s.history.rscount + 1 → (s.history.sf (keep + 1)).argsC = 0)))
  | .enterRead _ _ _ | .enterOther _ _ => isTrue trivial

/-- The invariant of undisturbed runs. -/
structure Inv (s : State P) : Prop where
  /-- The next index is in bounds. -/
  count : s.history.rscount < rsCountMax
  /-- The recorded entries match. -/
  entries : ArgumentsMatch s
  /-- The entries above the next one have no arguments. -/
  clear : ∀ i, s.history.rscount < i → i < rsCountMax → (s.history.sf i).argsC = 0
  /-- The next entry has the arguments of the only call that has logged any. -/
  current : ∀ p, (∀ q, q ≠ p → (s.thread q).logged = []) →
    Matches (s.history.sf s.history.rscount) (s.thread p).logged
  /-- At most one call that is not recorded yet has logged arguments. -/
  alone : ∀ p q, (s.thread p).logged ≠ [] → (s.thread q).logged ≠ [] → p = q
  /-- A call logs at most six strings. -/
  bound : ∀ p, (s.thread p).logged.length + (s.thread p).pending ≤ 6

omit [DecidableEq P] in
/-- The next entry never has more than six rows. -/
theorem Inv.argsC_le {s : State P} (hinv : Inv s) (p : P) :
    (s.history.sf s.history.rscount).argsC ≤ 6 := by
  by_cases hlogged : ∃ q, (s.thread q).logged ≠ []
  · obtain ⟨q, hq⟩ := hlogged
    have hothers : ∀ r, r ≠ q → (s.thread r).logged = [] := by
      intro r hne
      by_contra hr
      exact hne (hinv.alone r q hr hq)
    rw [(hinv.current q hothers).1]
    exact le_trans (Nat.le_add_right _ _) (hinv.bound q)
  · push Not at hlogged
    rw [(hinv.current p fun q _ => hlogged q).1, hlogged p]
    decide

/-- A step that only moves one process on, keeping what it has logged. -/
theorem Inv.setThread {s : State P} (hinv : Inv s) {p : P} {th : Thread}
    (hlogged : th.logged = (s.thread p).logged) (hbound : th.logged.length + th.pending ≤ 6) :
    Inv (s.setThread p th) := by
  have hsame : ∀ q, ((s.setThread p th).thread q).logged = (s.thread q).logged := by
    intro q
    by_cases hq : q = p
    · simp [State.setThread, hq, hlogged]
    · simp [State.setThread, hq]
  constructor
  · exact hinv.count
  · exact hinv.entries
  · exact hinv.clear
  · intro q hothers
    rw [hsame]
    exact hinv.current q fun r hr => by rw [← hsame]; exact hothers r hr
  · intro q r hq hr
    rw [hsame] at hq hr
    exact hinv.alone q r hq hr
  · intro q
    by_cases hq : q = p
    · simpa [State.setThread, hq] using hbound
    · simpa [State.setThread, hq] using hinv.bound q

/-- A call of `set_last_syscall_info` by the only process that has logged arguments. -/
theorem Inv.info {s : State P} (hinv : Inv s) {p : P} {h : SyscallsHistory} {input : ℕ → UInt8}
    {num : ℕ} {todo : List LogStep} {logged : List (ℕ → UInt8)}
    (halone : ∀ q, q ≠ p → (s.thread q).logged = []) (hlogged : (s.thread p).logged = logged)
    (hset : s.history.setLastSyscallInfo input = some h)
    (hbound : logged.length + 1 + (Thread.call num todo []).pending ≤ 6) :
    Inv ({ s with history := h }.setThread p (.call num todo (logged ++ [input]))) := by
  obtain ⟨hcount, hframe, hrows⟩ := setLastSyscallInfo_spec hset
  have hothers : ∀ q, q ≠ p →
      ({ s with history := h }.setThread p (.call num todo (logged ++ [input]))).thread q =
        s.thread q := fun q hq => by simp [State.setThread, hq]
  have hself : (({ s with history := h }.setThread p
      (.call num todo (logged ++ [input]))).thread p) = .call num todo (logged ++ [input]) := by
    simp [State.setThread]
  constructor
  · exact hcount ▸ hinv.count
  · intro i hi
    have hi' : i < s.history.rscount := hcount ▸ hi
    exact (hframe i hi'.ne).symm ▸ hinv.entries i hi'
  · intro i hlo hhi
    have hlo' : s.history.rscount < i := hcount ▸ hlo
    exact (hframe i hlo'.ne').symm ▸ hinv.clear i hlo' hhi
  · intro q hq
    by_cases hqp : q = p
    · have hmatch := hrows _ (hinv.current p halone)
      rw [hqp, hself]
      rw [hlogged] at hmatch
      exact hcount.symm ▸ hmatch
    · have hp := hq p (Ne.symm hqp)
      rw [hself] at hp
      exact absurd hp (by simp [Thread.logged])
  · intro q r hq hr
    have hlast : ∀ x, (({ s with history := h }.setThread p
        (.call num todo (logged ++ [input]))).thread x).logged ≠ [] → x = p := by
      intro x hx
      by_contra hxp
      rw [hothers x hxp] at hx
      exact hx (halone x hxp)
    rw [hlast q hq, hlast r hr]
  · intro q
    by_cases hqp : q = p
    · rw [hqp, hself]
      simpa [Thread.logged, Thread.pending] using hbound
    · rw [hothers q hqp]
      exact hinv.bound q

/-- The recording of a call while no other process has logged arguments. -/
theorem Inv.register {s : State P} (hinv : Inv s) {p : P} {c : Call}
    {logged : List (ℕ → UInt8)} (halone : ∀ q, q ≠ p → (s.thread q).logged = [])
    (hlogged : (s.thread p).logged = logged)
    (hclear : rsCountMax ≤ s.history.rscount + 1 → (s.history.sf (keep + 1)).argsC = 0) :
    Inv ((s.register c logged).setThread p .user) := by
  have hmax : rsCountMax = 100 := rfl
  have hkeep : keep = 50 := rfl
  have hcount := hinv.count
  have hrscount := register_rscount s.history c
  have hnone : ∀ q, (((s.register c logged).setThread p .user).thread q).logged = [] := by
    intro q
    by_cases hqp : q = p
    · simp [State.setThread, hqp, Thread.logged]
    · simpa [State.setThread, State.register, hqp] using halone q hqp
  have hmatch : ∀ i, (i ≤ s.history.rscount) → Matches (s.history.sf i)
      (if i = s.history.rscount then logged else s.origin i) := by
    intro i hi
    by_cases hlast : i = s.history.rscount
    · rw [if_pos hlast, hlast, ← hlogged]
      exact hinv.current p halone
    · rw [if_neg hlast]
      exact hinv.entries i (by omega)
  have hnext : ((s.history.register c).sf (s.history.register c).rscount).argsC = 0 := by
    rw [register_argsC, hrscount]
    by_cases hfull : rsCountMax ≤ s.history.rscount + 1
    · rw [if_pos hfull, if_neg (by omega), movedFrom, if_neg (by omega)]
      exact hclear hfull
    · rw [if_neg hfull, if_neg (by omega), movedFrom, if_neg (by omega)]
      exact hinv.clear _ (by omega) (by omega)
  constructor
  · change (s.history.register c).rscount < rsCountMax
    rw [hrscount]
    split_ifs <;> omega
  · intro i hi
    change i < (s.history.register c).rscount at hi
    have hmoved : movedFrom s.history i ≤ s.history.rscount := by
      rw [hrscount] at hi
      unfold movedFrom
      split_ifs at hi ⊢ <;> omega
    obtain ⟨hlen, hargs⟩ := hmatch _ hmoved
    refine ⟨?_, fun j input hj k hk => ?_⟩
    · change ((s.history.register c).sf i).argsC = _
      rw [register_argsC, if_neg (by rw [hrscount] at hi; split_ifs at hi <;> omega)]
      exact hlen
    · change ((s.history.register c).sf i).args j k = input k
      rw [register_args]
      exact hargs j input hj k hk
  · intro i hlo hhi
    change (s.history.register c).rscount < i at hlo
    change ((s.history.register c).sf i).argsC = 0
    rw [hrscount] at hlo
    rw [register_argsC]
    by_cases hfull : rsCountMax ≤ s.history.rscount + 1
    · rw [if_pos hfull] at hlo
      rw [if_pos (by omega)]
    · rw [if_neg hfull] at hlo
      rw [if_neg (by omega), movedFrom, if_neg (by omega)]
      exact hinv.clear i (by omega) hhi
  · intro q _
    rw [hnone q]
    exact matches_nil.mpr hnext
  · intro q r hq _
    exact absurd (hnone q) hq
  · intro q
    by_cases hqp : q = p
    · simp [State.setThread, hqp, Thread.logged, Thread.pending]
    · simpa [State.setThread, State.register, hqp] using hinv.bound q

omit [DecidableEq P] in
/-- After boot the invariant holds. -/
theorem inv_init : Inv (init : State P) := by
  constructor <;> simp [init, ArgumentsMatch, Matches, SyscallsHistory.init, SyscallInfo.zero,
    Thread.logged, Thread.pending, rsCountMax]

/-- An undisturbed step keeps the invariant. -/
theorem Inv.step {s s' : State P} {a : Action P} (hinv : Inv s) (hguard : Undisturbed s a)
    (hstep : step s a = some s') : Inv s' := by
  cases a with
  | enterRead p buf n =>
    cases hthread : s.thread p with
    | call num todo logged => simp [LoggedArguments.step, hthread] at hstep
    | user =>
      simp only [LoggedArguments.step, hthread, Option.some.injEq] at hstep
      subst hstep
      exact hinv.setThread (by simp [hthread, Thread.logged])
        (by simp [Thread.logged, Thread.pending, sysReadSteps])
  | enterOther p num =>
    cases hthread : s.thread p with
    | call num todo logged => simp [LoggedArguments.step, hthread] at hstep
    | user =>
      simp only [LoggedArguments.step, hthread, Option.ite_none_right_eq_some,
        Option.some.injEq] at hstep
      obtain ⟨-, rfl⟩ := hstep
      exact hinv.setThread (by simp [hthread, Thread.logged])
        (by simp [Thread.logged, Thread.pending])
  | log p =>
    have hbound := hinv.bound p
    cases hthread : s.thread p with
    | user => simp [LoggedArguments.step, hthread] at hstep
    | call num todo logged =>
      rw [hthread] at hbound
      cases todo with
      | nil => simp [LoggedArguments.step, hthread] at hstep
      | cons first todo =>
        cases first with
        | info input =>
          simp only [LoggedArguments.step, hthread, Option.map_eq_some_iff] at hstep
          obtain ⟨h, hset, rfl⟩ := hstep
          refine hinv.info hguard (by rw [hthread]; rfl) hset ?_
          simp [Thread.logged, Thread.pending] at hbound ⊢
          omega
        | itoa n =>
          simp only [LoggedArguments.step, hthread, Option.some.injEq] at hstep
          subst hstep
          have htemp : Inv { s with temp := itoa s.temp n } := ⟨hinv.count, hinv.entries,
            hinv.clear, hinv.current, hinv.alone, hinv.bound⟩
          refine htemp.setThread (by simp [hthread, Thread.logged]) ?_
          simpa [Thread.logged, Thread.pending] using hbound
        | infoTemp =>
          simp only [LoggedArguments.step, hthread, Option.map_eq_some_iff] at hstep
          obtain ⟨h, hset, rfl⟩ := hstep
          refine hinv.info hguard (by rw [hthread]; rfl) hset ?_
          simp [Thread.logged, Thread.pending] at hbound ⊢
          omega
  | complete p c =>
    cases hthread : s.thread p with
    | user => simp [LoggedArguments.step, hthread] at hstep
    | call num todo logged =>
      cases todo with
      | cons first todo => simp [LoggedArguments.step, hthread] at hstep
      | nil =>
        simp only [LoggedArguments.step, hthread, Option.ite_none_right_eq_some,
          Option.some.injEq] at hstep
        obtain ⟨-, rfl⟩ := hstep
        exact hinv.register hguard.1 (by rw [hthread]; rfl) hguard.2

/-- The invariant holds throughout undisturbed runs. -/
theorem inv_run {trace : List (Action P)} {s : State P}
    (hrun : Run step (fun _ => Undisturbed) init trace s) : Inv s := by
  refine Run.invariant (I := fun _ => Inv) inv_init ?_ hrun
  intro _ s a s' hinv hguard hstep
  exact hinv.step hguard hstep

/-- In every state of a run whose steps are undisturbed the recorded entries have the rows
of their own calls, and every row about to be written is a row of `args`. -/
theorem logged_arguments_match {trace : List (Action P)} {s : State P}
    (hrun : Run step (fun _ => Undisturbed) init trace s) : ArgumentsMatch s ∧ RowsInBounds s := by
  have hinv := inv_run hrun
  exact ⟨hinv.entries, fun p _ => lt_of_le_of_lt (hinv.argsC_le p) (by decide)⟩

/-- A process that logs a read, completes it, and a second process that does the same. -/
def twoReads (p q : P) : List (Action P) :=
  [(p, 1), (q, 2)].flatMap fun (p, pid) =>
    .enterRead p (cString "hello") 5 :: (List.replicate 7 (.log p) ++
      [.complete p ⟨pid, sysRead, "read", ⟨0, 0, 0, 1, 1, 2024⟩⟩])

/-- Two reads one after the other are an undisturbed run, and both are recorded. -/
theorem logged_arguments_match_twoReads :
    ∃ s, exec step (fun _ => Undisturbed) [] init (twoReads (0 : Fin 2) 1) = some s ∧
      ArgumentsMatch s ∧ RowsInBounds s := by
  have hsome : (exec step (fun _ => Undisturbed) [] init (twoReads (0 : Fin 2) 1)).isSome := by
    decide
  obtain ⟨s, hs⟩ := Option.isSome_iff_exists.mp hsome
  exact ⟨s, hs, logged_arguments_match (run_of_exec hs)⟩

/-- A read that sleeps after logging its arguments while another process calls `getpid`. -/
def readWhileGetpid (p q : P) : List (Action P) :=
  .enterRead p (cString "hello") 5 :: (List.replicate 7 (.log p) ++
    [.enterOther q sysGetpid, .complete q ⟨2, sysGetpid, "getpid", ⟨0, 0, 0, 1, 1, 2024⟩⟩])

/-- The entry of the `getpid` call gets the six rows of the read. -/
theorem logged_arguments_mismatch :
    ¬ ∀ (trace : List (Action (Fin 2))) (s : State (Fin 2)), Run step free init trace s →
      ArgumentsMatch s ∧ RowsInBounds s := by
  intro hclaim
  have hrows : (exec step free [] init (readWhileGetpid (0 : Fin 2) 1)).map
      (fun s => (s.history.rscount, (s.history.sf 0).argsC, (s.origin 0).length)) =
        some (1, 6, 0) := by
    decide
  obtain ⟨s, hs, hvalues⟩ := Option.map_eq_some_iff.mp hrows
  simp only [Prod.mk.injEq] at hvalues
  obtain ⟨hcount, hargs, horigin⟩ := hvalues
  have hmatch := ((hclaim _ s (run_of_exec hs)).1 0 (by omega)).1
  omega

end Xv6.LoggedArguments
