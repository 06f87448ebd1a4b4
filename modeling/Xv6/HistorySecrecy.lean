import Xv6.LoggedArguments

/-!
# What the system-call history tells of process memory

The console output of `log_syscalls` and `invoked_syscalls`, which print the history without
taking its lock, and the system of any number of processes that make system calls and print
the history, one section or one call of `cprintf` a step. Two runs with the same system calls
that differ in the memory of one process print the same, as long as the buffers which that
process passes to `read` do not differ where `sys_read` logs them, and no entry gets more rows than
it has room for: `set_last_syscall_info` does not look at the index of the row, and an eleventh one
is written over what follows `args` in memory.
-/

namespace Xv6.HistorySecrecy

open GuardedRun SyscallsHistory
open LoggedArguments (cString itoa)

/-! ## Printing -/

/-- The characters of a string. -/
def text (s : String) : List UInt8 := s.toList.map fun c => c.val.toUInt8

/-- `printint` in base 10. -/
def decimal (n : ℤ) : List UInt8 := text (toString n)

/-- The memory of an entry from `args` to its end: the rows lie one behind the other and
`args_c` behind them. -/
def argBytes (e : SyscallInfo) : List UInt8 :=
  (List.finRange 10).flatMap (fun j => (List.finRange 10).map (e.args j)) ++
    (List.range 4).map fun i => (e.argsC / 256 ^ i).toUInt8

/-- What `%s` prints for `args[j]`: a row without a NUL runs on into the next one. Outside of
`args` the result is undefined. -/
def argText (e : SyscallInfo) (j : ℕ) : Option (List UInt8) :=
  let bytes := (argBytes e).drop (10 * j)
  if j < 10 ∧ 0 ∈ bytes then some (bytes.takeWhile (· ≠ 0)) else none

/-- The two system calls that print. -/
inductive Report
  /-- `log_syscalls`. -/
  | log
  /-- `invoked_syscalls`. -/
  | invoked (pid : ℤ)
  deriving DecidableEq

/-- The number of the system call. -/
def Report.num : Report → ℕ
  | .log => sysLogSyscalls
  | .invoked _ => 22

/-- The test on an entry. -/
def Report.Shows (e : SyscallInfo) : Report → Prop
  | .log => True
  | .invoked pid => pid = e.call.pid

instance (e : SyscallInfo) : ∀ r : Report, Decidable (r.Shows e)
  | .log => isTrue trivial
  | .invoked pid => inferInstanceAs (Decidable (pid = e.call.pid))

/-- The first `cprintf` for an entry. -/
def Report.header (e : SyscallInfo) : Report → List UInt8
  | .log =>
      text "name: " ++ text e.call.name ++ text " , id: " ++ decimal e.call.id ++
        text ",  pid: " ++ decimal e.call.pid ++ text ", time: "
  | .invoked _ =>
      text "name: " ++ text e.call.name ++ text " , id: " ++ decimal e.call.id ++
        text ",  pid: " ++ decimal e.call.pid ++ text ","

/-- The calls of `cprintf` behind the arguments of an entry. -/
def Report.footer (d : RtcDate) : Report → List (List UInt8)
  | .log =>
      [text "\n", decimal d.hour ++ text ":", decimal d.minute ++ text ":", decimal d.second,
        text "\n\n"]
  | .invoked _ =>
      [text "\n", text "time: ", decimal d.hour ++ text ":", decimal d.minute ++ text ":",
        decimal d.second, text "\n\n"]

/-- Positions in `log_syscalls` and `invoked_syscalls`. -/
inductive ReportPc
  /-- At the first `cprintf`. -/
  | start
  /-- At the message that there is no such process. -/
  | nobody
  /-- At the test `i < rscount`. -/
  | entry (i : ℕ)
  /-- At the test `j < args_c`. -/
  | arg (i j : ℕ)
  /-- At one of the calls of `cprintf` behind the arguments. -/
  | footer (i k : ℕ)
  /-- At the test of a slot of the process table. -/
  | slot (i : ℕ)
  /-- At the test of a counter. -/
  | count (i id : ℕ)
  deriving DecidableEq

/-- One step of the two: what it prints, and the next position if there is one. -/
def reportStep (h : SyscallsHistory) (t : PTable) :
    Report → ReportPc → Option (List UInt8 × Option ReportPc)
  | .log, .start => some (text "log_syscalls called \n", some (.entry 0))
  | .invoked pid, .start =>
      some (text "invoked_syscalls called with " ++ decimal pid ++ text " \n",
        some (if 0 < pid ∧ pid < t.nextpid then .entry 0 else .nobody))
  | _, .nobody => some (text "procces dosent created!", none)
  | r, .entry i =>
      if i < h.rscount then
        if r.Shows (h.sf i) then some (r.header (h.sf i), some (.arg i 0))
        else some ([], some (.entry (i + 1)))
      else
        match r with
        | .log => some ([], none)
        | .invoked _ => some ([], some (.slot 0))
  | _, .arg i j =>
      if j < (h.sf i).argsC then
        (argText (h.sf i) j).map fun s => (text "  " ++ s ++ text "  ", some (.arg i (j + 1)))
      else some ([], some (.footer i 0))
  | r, .footer i k =>
      match (r.footer (h.sf i).call.date)[k]? with
      | some s => some (s, some (.footer i (k + 1)))
      | none => some ([], some (.entry (i + 1)))
  | .invoked pid, .slot i =>
      if hi : i < nproc then
        if (t.proc ⟨i, hi⟩).pid = pid then some ([], some (.count i 0))
        else some ([], some (.slot (i + 1)))
      else some ([], none)
  | .invoked _, .count i id =>
      if hi : i < nproc then
        if hid : id < maxSyscall then
          if 0 < (t.proc ⟨i, hi⟩).syscallCount ⟨id, hid⟩ then
            (getName id).map fun name =>
              (text " " ++ text name ++ text "  " ++
                decimal ((t.proc ⟨i, hi⟩).syscallCount ⟨id, hid⟩) ++ text "\n",
                some (.count i (id + 1)))
          else some ([], some (.count i (id + 1)))
        else some ([], some (.slot (i + 1)))
      else none
  | .log, .slot _ | .log, .count _ _ => none

/-! ## The system -/

/-- What `sys_read` does to the history and to `temp`. -/
inductive LogStep
  /-- `set_last_syscall_info` on a string of its own. -/
  | info (input : ℕ → UInt8)
  /-- `set_last_syscall_info((char*)p)`. -/
  | buffer (p : ℕ)
  /-- `itoa` into `temp`. -/
  | itoa (num : ℤ)
  /-- `set_last_syscall_info(temp)`. -/
  | infoTemp

/-- `sys_read` between its argument checks and `fileread`. -/
def sysReadSteps (p : ℕ) (n : ℤ) : List LogStep :=
  [.info (cString "fd: "), .info (cString "Inode"), .info (cString "ptr: "), .buffer p,
    .info (cString "int"), .itoa n, .infoTemp]

/-- Where a process is. -/
inductive Thread
  /-- In user mode. -/
  | user
  /-- In a system call, with the steps of `sys_read` still to do. -/
  | call (num : ℕ) (todo : List LogStep)
  /-- In one of the two calls that print. -/
  | report (r : Report) (pc : ReportPc)

/-- The history and what is printed of it, the process table, and the processes. -/
structure State (P : Type*) where
  /-- `syscalls_history`. -/
  history : SyscallsHistory
  /-- The buffer `temp` of `sysfile.c`. -/
  temp : ℕ → UInt8
  /-- `ptable` and `nextpid`. -/
  table : PTable
  /-- The user memory of the processes. -/
  mem : P → ℕ → UInt8
  /-- Where each process is. -/
  thread : P → Thread
  /-- What `log_syscalls` and `invoked_syscalls` have printed. -/
  console : List UInt8

/-- The steps. -/
inductive Action (P : Type*)
  /-- The memory of a process changes: it runs in user mode, or the kernel writes to it. -/
  | user (q : P) (mem : ℕ → UInt8)
  /-- Any other part of the kernel changes the process table. -/
  | kernel (f : PTable → PTable)
  /-- `sys_read` passes its argument checks. -/
  | enterRead (q : P) (p : ℕ) (n : ℤ)
  /-- `log_syscalls` or `invoked_syscalls` is entered. -/
  | enterReport (q : P) (r : Report)
  /-- Any other system call is entered, or a `sys_read` that fails its checks. -/
  | enterOther (q : P) (num : ℕ)
  /-- The next step of `sys_read` on the history or on `temp`. -/
  | log (q : P)
  /-- The next step of a call that prints. -/
  | print (q : P)
  /-- The handler returns and `syscall()` calls `register_syscall`. -/
  | complete (q : P) (pid : ℤ) (date : RtcDate)

variable {P : Type*} [DecidableEq P]

/-- Move one process. -/
def State.setThread (s : State P) (q : P) (th : Thread) : State P :=
  { s with thread := Function.update s.thread q th }

/-- A process in user mode enters a system call. -/
def State.enter (s : State P) (q : P) (th : Thread) : Option (State P) :=
  match s.thread q with
  | .user => some (s.setThread q th)
  | _ => none

/-- `set_last_syscall_info`, and the steps that are left. -/
def State.info (s : State P) (q : P) (num : ℕ) (todo : List LogStep) (input : ℕ → UInt8) :
    Option (State P) :=
  (s.history.setLastSyscallInfo input).map fun h =>
    { s with history := h }.setThread q (.call num todo)

/-- One step of a process; `none` if it is not the process's next one, or if it writes behind the
rows of an entry. -/
def step (s : State P) : Action P → Option (State P)
  | .user q mem => some { s with mem := Function.update s.mem q mem }
  | .kernel f => some { s with table := f s.table }
  | .enterRead q p n => s.enter q (.call sysRead (sysReadSteps p n))
  | .enterReport q r => s.enter q (.report r .start)
  | .enterOther q num => if Dispatchable num then s.enter q (.call num []) else none
  | .log q =>
      match s.thread q with
      | .call num (.info input :: todo) => s.info q num todo input
      | .call num (.buffer p :: todo) => s.info q num todo fun i => s.mem q (p + i)
      | .call num (.itoa n :: todo) =>
          some ({ s with temp := itoa s.temp n }.setThread q (.call num todo))
      | .call num (.infoTemp :: todo) => s.info q num todo s.temp
      | _ => none
  | .print q =>
      match s.thread q with
      | .report r pc =>
          (reportStep s.history s.table r pc).map fun (out, next) =>
            { s with console := s.console ++ out }.setThread q
              (next.elim (.call r.num []) (.report r))
      | _ => none
  | .complete q pid date =>
      match s.thread q with
      | .call num [] =>
          (getName num).map fun name =>
            let c : Call := ⟨pid, num, name, date⟩
            { s with
              history := s.history.register c
              table := s.table.countSyscall pid num }.setThread q .user
      | _ => none

/-- After boot, with the process table and the memory of the processes. -/
def init (table : PTable) (mem : P → ℕ → UInt8) : State P :=
  ⟨.init, cString "123456789", table, mem, fun _ => .user, []⟩

/-! ## Two runs -/

/-- A step of two runs that differ at most in the memory of one process. -/
inductive Twin (P : Type*)
  /-- The same step in both. -/
  | same (x : Action P)
  /-- The memory of the process changes, in each run in its own way. -/
  | memory (m m' : ℕ → UInt8)

/-- The step of the first run. -/
def Twin.fst (a : P) : Twin P → Action P
  | .same x => x
  | .memory m _ => .user a m

/-- The step of the second run. -/
def Twin.snd (a : P) : Twin P → Action P
  | .same x => x
  | .memory _ m' => .user a m'

/-- One step in each of two runs that differ at most in the memory of `a`. -/
def pairStep (a : P) (s : State P × State P) (x : Twin P) : Option (State P × State P) :=
  (step s.1 (x.fst a)).bind fun s' => (step s.2 (x.snd a)).map fun t' => (s', t')

/-- Two strings of which the loop of `set_last_syscall_info` copies the same bytes. -/
def SameArg (input input' : ℕ → UInt8) : Prop :=
  argLength input = argLength input' ∧ ∀ i < argLength input, input i = input' i

instance (input input' : ℕ → UInt8) : Decidable (SameArg input input') :=
  inferInstanceAs (Decidable (_ ∧ _))

/-- The process and the buffer, if the step is the one by which `sys_read` logs its buffer. -/
def bufferLogged (s : State P) : Action P → Option (P × ℕ)
  | .log q =>
      match s.thread q with
      | .call _ (.buffer p :: _) => some (q, p)
      | _ => none
  | _ => none

/-- `sys_read` logs no buffer of `a`, or one that begins with the same string in both runs. -/
def Discreet (a : P) (_ : List (Twin P)) (s : State P × State P) (x : Twin P) : Prop :=
  ∀ p ∈ (bufferLogged s.1 (x.fst a)).toList, p.1 = a →
    SameArg (fun i => s.1.mem a (p.2 + i)) fun i => s.2.mem a (p.2 + i)

instance (a : P) (trace : List (Twin P)) (s : State P × State P) (x : Twin P) :
    Decidable (Discreet a trace s x) :=
  inferInstanceAs (Decidable (∀ p ∈ (bufferLogged s.1 (x.fst a)).toList, p.1 = a →
    SameArg (fun i => s.1.mem a (p.2 + i)) fun i => s.2.mem a (p.2 + i)))

/-- The step is a call of `set_last_syscall_info`. -/
def writesRow (s : State P) : Action P → Bool
  | .log q =>
      match s.thread q with
      | .call _ (.itoa _ :: _) => false
      | .call _ (_ :: _) => true
      | _ => false
  | _ => false

/-- The row that the step writes to, if any, is one of the ten rows of the next entry. -/
def InBounds (s : State P) (x : Action P) : Prop :=
  writesRow s x = true → (s.history.sf s.history.rscount).argsC < 10

instance (s : State P) (x : Action P) : Decidable (InBounds s x) :=
  inferInstanceAs (Decidable (_ → _))

/-- A step of the two runs that logs no differing buffer of `a` and writes no row out of bounds. -/
def Careful (a : P) (trace : List (Twin P)) (s : State P × State P) (x : Twin P) : Prop :=
  Discreet a trace s x ∧ InBounds s.1 (x.fst a) ∧ InBounds s.2 (x.snd a)

instance (a : P) (trace : List (Twin P)) (s : State P × State P) (x : Twin P) :
    Decidable (Careful a trace s x) :=
  inferInstanceAs (Decidable (_ ∧ _))

/-- The two runs are at the same point and agree on all that is printed. -/
structure Similar (a : P) (s t : State P) : Prop where
  /-- The history. -/
  history : s.history = t.history
  /-- `temp`. -/
  temp : s.temp = t.temp
  /-- The process table. -/
  table : s.table = t.table
  /-- The memory of the other processes. -/
  mem : ∀ q, q ≠ a → s.mem q = t.mem q
  /-- The positions. -/
  thread : s.thread = t.thread
  /-- The output. -/
  console : s.console = t.console

omit [DecidableEq P] in
/-- `set_last_syscall_info` reads no more of its argument than it copies. -/
theorem setLastSyscallInfo_congr (h : SyscallsHistory) {input input' : ℕ → UInt8}
    (hsame : SameArg input input') : h.setLastSyscallInfo input = h.setLastSyscallInfo input' := by
  obtain ⟨hlength, hbytes⟩ := hsame
  have hcopy : copyArg input = copyArg input' := by
    funext row i
    unfold copyArg
    rw [← hlength]
    split_ifs with hi
    · exact hbytes i hi
    · rfl
  simp only [setLastSyscallInfo, hcopy, hlength]

namespace Similar

variable {a : P} {s t s' t' : State P}

theorem setThread (h : Similar a s t) (q : P) (th : Thread) :
    Similar a (s.setThread q th) (t.setThread q th) :=
  { h with thread := by simp [State.setThread, h.thread] }

theorem enter (h : Similar a s t) {q : P} {th : Thread} (hs : s.enter q th = some s')
    (ht : t.enter q th = some t') : Similar a s' t' := by
  unfold State.enter at hs ht
  rw [← h.thread] at ht
  split at hs
  · rename_i huser
    rw [huser] at ht
    cases hs
    cases ht
    exact h.setThread q th
  · cases hs

theorem info (h : Similar a s t) {q : P} {num : ℕ} {todo : List LogStep}
    {input input' : ℕ → UInt8} (hsame : SameArg input input')
    (hs : s.info q num todo input = some s') (ht : t.info q num todo input' = some t') :
    Similar a s' t' := by
  unfold State.info at hs ht
  rw [← h.history, ← setLastSyscallInfo_congr _ hsame] at ht
  obtain ⟨history, hhistory, rfl⟩ := Option.map_eq_some_iff.mp hs
  obtain ⟨history', hhistory', rfl⟩ := Option.map_eq_some_iff.mp ht
  obtain rfl : history = history' := Option.some.inj (hhistory.symm.trans hhistory')
  apply Similar.setThread
  exact { h with history := rfl }

/-- `set_last_syscall_info` on a string that is the same in both runs. -/
theorem info_self (h : Similar a s t) {q : P} {num : ℕ} {todo : List LogStep}
    {input : ℕ → UInt8} (hs : s.info q num todo input = some s')
    (ht : t.info q num todo input = some t') : Similar a s' t' :=
  h.info ⟨rfl, fun _ _ => rfl⟩ hs ht

/-- The next step of `sys_read`. -/
theorem log (h : Similar a s t) {q : P} {trace : List (Twin P)}
    (hagree : Discreet a trace (s, t) (.same (.log q)))
    (hs : step s (.log q) = some s') (ht : step t (.log q) = some t') : Similar a s' t' := by
  simp only [step] at hs ht
  rw [← h.thread] at ht
  split at hs
  · rename_i num input todo hthread
    rw [hthread] at ht
    exact h.info_self hs ht
  · rename_i num p todo hthread
    rw [hthread] at ht
    apply h.info _ hs ht
    by_cases hq : q = a
    · subst hq
      exact hagree (q, p) (by simp [bufferLogged, Twin.fst, hthread]) rfl
    · rw [h.mem q hq]
      exact ⟨rfl, fun _ _ => rfl⟩
  · rename_i num n todo hthread
    rw [hthread] at ht
    cases hs
    cases ht
    apply Similar.setThread
    exact { h with temp := by simp [h.temp], thread := rfl }
  · rename_i num todo hthread
    rw [hthread, ← h.temp] at ht
    exact h.info_self hs ht
  · cases hs

/-- The next step of a call that prints. -/
theorem print (h : Similar a s t) {q : P} (hs : step s (.print q) = some s')
    (ht : step t (.print q) = some t') : Similar a s' t' := by
  simp only [step] at hs ht
  rw [← h.thread] at ht
  split at hs
  · rename_i r pc hthread
    rw [hthread] at ht
    obtain ⟨out, hout, rfl⟩ := Option.map_eq_some_iff.mp hs
    obtain ⟨out', hout', rfl⟩ := Option.map_eq_some_iff.mp ht
    rw [← h.history, ← h.table] at hout'
    obtain rfl : out = out' := Option.some.inj (hout.symm.trans hout')
    apply Similar.setThread
    exact { h with console := by simp [h.console], thread := rfl }
  · cases hs

/-- The end of a system call. -/
theorem complete (h : Similar a s t) {q : P} {pid : ℤ} {date : RtcDate}
    (hs : step s (.complete q pid date) = some s')
    (ht : step t (.complete q pid date) = some t') : Similar a s' t' := by
  simp only [step] at hs ht
  rw [← h.thread] at ht
  split at hs
  · rename_i num hthread
    rw [hthread] at ht
    obtain ⟨name, hname, rfl⟩ := Option.map_eq_some_iff.mp hs
    obtain ⟨name', hname', rfl⟩ := Option.map_eq_some_iff.mp ht
    obtain rfl : name = name' := Option.some.inj (hname.symm.trans hname')
    apply Similar.setThread
    exact { h with
      history := by simp [h.history]
      table := by simp [h.table]
      thread := rfl }
  · cases hs

/-- The same step in both runs. -/
theorem same (h : Similar a s t) {x : Action P} {trace : List (Twin P)}
    (hagree : Discreet a trace (s, t) (.same x)) (hs : step s x = some s')
    (ht : step t x = some t') : Similar a s' t' := by
  cases x with
  | user q mem =>
    cases hs
    cases ht
    refine { h with mem := fun r hr => ?_ }
    simp only [Function.update_apply, h.mem r hr]
  | kernel f =>
    cases hs
    cases ht
    exact { h with table := congrArg f h.table }
  | enterRead q p n => exact h.enter hs ht
  | enterReport q r => exact h.enter hs ht
  | enterOther q num =>
    simp only [step] at hs ht
    split at hs
    · rename_i hnum
      rw [if_pos hnum] at ht
      exact h.enter hs ht
    · cases hs
  | log q => exact h.log hagree hs ht
  | print q => exact h.print hs ht
  | complete q pid date => exact h.complete hs ht

/-- One step in each run. -/
theorem pairStep (h : Similar a s t) {x : Twin P} {trace : List (Twin P)}
    (hagree : Discreet a trace (s, t) x) (hstep : pairStep a (s, t) x = some (s', t')) :
    Similar a s' t' := by
  obtain ⟨u, hu, hrest⟩ := Option.bind_eq_some_iff.mp hstep
  obtain ⟨v, hv, huv⟩ := Option.map_eq_some_iff.mp hrest
  cases huv
  cases x with
  | same x => exact h.same hagree hu hv
  | memory m m' =>
    cases hu
    cases hv
    refine { h with mem := fun r hr => ?_ }
    simp only [Function.update_of_ne hr, h.mem r hr]

end Similar

/-- Two runs that log no differing buffer stay similar. -/
theorem similar_of_run {a : P} {table : PTable} {mem mem' : P → ℕ → UInt8}
    (hmem : ∀ q, q ≠ a → mem q = mem' q) {trace : List (Twin P)} {s : State P × State P}
    (hrun : Run (pairStep a) (Careful a) (init table mem, init table mem') trace s) :
    Similar a s.1 s.2 := by
  refine hrun.invariant (I := fun _ s => Similar a s.1 s.2) ⟨rfl, rfl, rfl, hmem, rfl, rfl⟩ ?_
  rintro _ ⟨s, t⟩ x ⟨s', t'⟩ hs hcareful hstep
  exact hs.pairStep hcareful.1 hstep

/-! ## Rows in bounds -/

/-- No entry has more rows than `args`. -/
def RowsFit (s : State P) : Prop := ∀ i, (s.history.sf i).argsC ≤ 10

omit [DecidableEq P] in
/-- A row that is printed ends before the end of the entry: `args_c` has a byte that is 0. -/
theorem argText_isSome {e : SyscallInfo} (hrows : e.argsC ≤ 10) {j : ℕ} (hj : j < e.argsC) :
    (argText e j).isSome := by
  have hlength : ((List.finRange 10).flatMap fun j => (List.finRange 10).map (e.args j)).length =
      100 := by
    simp
  have hend : (0 : UInt8) ∈ (List.range 4).map fun i => (e.argsC / 256 ^ i).toUInt8 := by
    refine List.mem_map.mpr ⟨1, by decide, ?_⟩
    rw [Nat.div_eq_of_lt (by omega)]
    rfl
  have hmem : 0 ∈ (argBytes e).drop (10 * j) := by
    rw [argBytes, List.drop_append_of_le_length (by omega)]
    exact List.mem_append_right _ hend
  rw [argText, if_pos ⟨by omega, hmem⟩]
  rfl

omit [DecidableEq P] in
/-- In bounds, `set_last_syscall_info` adds a row, and no entry gets too many. -/
theorem setLastSyscallInfo_rows {h : SyscallsHistory} (input : ℕ → UInt8)
    (hrows : ∀ i, (h.sf i).argsC ≤ 10) (hfree : (h.sf h.rscount).argsC < 10) :
    ∃ h', h.setLastSyscallInfo input = some h' ∧ ∀ i, (h'.sf i).argsC ≤ 10 := by
  rw [setLastSyscallInfo, dif_pos hfree]
  refine ⟨_, rfl, fun i => ?_⟩
  rw [modify_sf]
  split_ifs with hi
  · rw [hi]
    exact hfree
  · exact hrows i

omit [DecidableEq P] in
/-- `register_syscall` gives no entry more rows than one had. -/
theorem register_rows {h : SyscallsHistory} (c : Call) (hrows : ∀ i, (h.sf i).argsC ≤ 10) (i : ℕ) :
    ((h.register c).sf i).argsC ≤ 10 := by
  rw [LoggedArguments.register_argsC]
  split_ifs
  · exact Nat.zero_le _
  · exact hrows _

theorem RowsFit.enter {s s' : State P} {q : P} {th : Thread} (hrows : RowsFit s)
    (hs' : s.enter q th = some s') : RowsFit s' := by
  unfold State.enter at hs'
  split at hs'
  · cases hs'
    exact hrows
  · cases hs'

/-- A step in bounds keeps the rows in bounds. -/
theorem RowsFit.step {s s' : State P} {x : Action P} (hrows : RowsFit s) (hbounds : InBounds s x)
    (hs' : step s x = some s') : RowsFit s' := by
  have hinfo {q : P} {num : ℕ} {todo : List LogStep} {input : ℕ → UInt8}
      (hfree : (s.history.sf s.history.rscount).argsC < 10)
      (hset : s.info q num todo input = some s') : RowsFit s' := by
    obtain ⟨h', hh', hrows'⟩ := setLastSyscallInfo_rows input hrows hfree
    rw [State.info, hh'] at hset
    obtain rfl := Option.some.inj hset
    exact hrows'
  cases x with
  | user q mem =>
    cases hs'
    exact hrows
  | kernel f =>
    cases hs'
    exact hrows
  | enterRead q p n => exact hrows.enter hs'
  | enterReport q r => exact hrows.enter hs'
  | enterOther q num =>
    simp only [HistorySecrecy.step] at hs'
    split at hs'
    · exact hrows.enter hs'
    · cases hs'
  | log q =>
    simp only [HistorySecrecy.step] at hs'
    split at hs'
    · rename_i hthread
      exact hinfo (hbounds (by simp only [writesRow, hthread])) hs'
    · rename_i hthread
      exact hinfo (hbounds (by simp only [writesRow, hthread])) hs'
    · cases hs'
      exact hrows
    · rename_i hthread
      exact hinfo (hbounds (by simp only [writesRow, hthread])) hs'
    · cases hs'
  | print q =>
    simp only [HistorySecrecy.step] at hs'
    split at hs'
    · obtain ⟨out, -, rfl⟩ := Option.map_eq_some_iff.mp hs'
      exact hrows
    · cases hs'
  | complete q pid date =>
    simp only [HistorySecrecy.step] at hs'
    split at hs'
    · obtain ⟨name, -, rfl⟩ := Option.map_eq_some_iff.mp hs'
      exact register_rows _ hrows
    · cases hs'

/-- In two careful runs no entry gets more rows than `args`. -/
theorem rows_of_run {a : P} {table : PTable} {mem mem' : P → ℕ → UInt8} {trace : List (Twin P)}
    {s : State P × State P}
    (hrun : Run (pairStep a) (Careful a) (init table mem, init table mem') trace s) :
    RowsFit s.1 ∧ RowsFit s.2 := by
  refine hrun.invariant (I := fun _ s => RowsFit s.1 ∧ RowsFit s.2)
    ⟨fun _ => Nat.zero_le _, fun _ => Nat.zero_le _⟩ ?_
  rintro _ ⟨s, t⟩ x ⟨s', t'⟩ ⟨hs, ht⟩ ⟨-, hbounds, hbounds'⟩ hstep
  obtain ⟨u, hu, hrest⟩ := Option.bind_eq_some_iff.mp hstep
  obtain ⟨v, hv, huv⟩ := Option.map_eq_some_iff.mp hrest
  cases huv
  exact ⟨hs.step hbounds hu, ht.step hbounds' hv⟩

/-- **The history tells nothing of buffers that are not logged.** In two runs with the same
system calls that differ in the memory of one process, in which no logged buffer of that
process differs and no entry gets an eleventh row, `log_syscalls` and `invoked_syscalls` print the
same, and every row that they may print lies in its entry. -/
theorem console_eq {a : P} {table : PTable} {mem mem' : P → ℕ → UInt8}
    (hmem : ∀ q, q ≠ a → mem q = mem' q) {trace : List (Twin P)} {s : State P × State P}
    (hrun : Run (pairStep a) (Careful a) (init table mem, init table mem') trace s) :
    s.1.console = s.2.console ∧
      ∀ i j, j < (s.1.history.sf i).argsC → (argText (s.1.history.sf i) j).isSome :=
  ⟨(similar_of_run hmem hrun).console, fun i _ hj => argText_isSome ((rows_of_run hrun).1 i) hj⟩

/-- The memory of two processes; that of the first holds `c` at address 0 and `d` at 16. -/
def pairMem (c d : UInt8) (q : Bool) : ℕ → UInt8 :=
  fun i => if q then 0 else if i = 0 then c else if i = 16 then d else 0

theorem pairMem_of_ne {c d c' d' : UInt8} {q : Bool} (hq : q ≠ false) :
    pairMem c d q = pairMem c' d' q := by
  obtain rfl : q = true := by simpa using hq
  rfl

/-- The first process reads five bytes to address 0, and the second prints the history. -/
def readAndPrint : List (Twin Bool) :=
  List.map Twin.same
    ([Action.enterRead false 0 5] ++ List.replicate 7 (.log false) ++
      [.complete false 1 ⟨0, 0, 0, 1, 1, 2000⟩, .enterReport true .log] ++
      List.replicate 8 (.print true))

/-- The first process's memory differs where it is not logged. -/
theorem console_eq_readAndPrint :
    ∃ s, Run (pairStep false) (Careful false)
        (init .zero (pairMem 65 83), init .zero (pairMem 65 84)) readAndPrint.reverse s ∧
      s.1.console = s.2.console := by
  have hexec : (exec (pairStep false) (Careful false) []
      (init .zero (pairMem 65 83), init .zero (pairMem 65 84)) readAndPrint).isSome = true := by
    decide +kernel
  obtain ⟨s, hs⟩ := Option.isSome_iff_exists.mp hexec
  have hrun := run_of_exec hs
  exact ⟨s, hrun, (console_eq (fun _ => pairMem_of_ne) hrun).1⟩

/-- A process that reads into a buffer is heard by another: the byte that was in the buffer
before the call is printed. -/
theorem console_leaks : ¬ ∀ (a : Bool) (table : PTable) (mem mem' : Bool → ℕ → UInt8),
    (∀ q, q ≠ a → mem q = mem' q) → ∀ (trace : List (Twin Bool)) (s : State Bool × State Bool),
      Run (pairStep a) free (init table mem, init table mem') trace s →
        s.1.console = s.2.console := by
  intro h
  have hexec : (exec (pairStep false) free []
      (init .zero (pairMem 83 0), init .zero (pairMem 84 0)) readAndPrint).any
        (fun s => s.1.console ≠ s.2.console) = true := by decide +kernel
  obtain ⟨s, hs, hne⟩ := (Option.any_eq_true _ _).mp hexec
  exact of_decide_eq_true hne (h false _ _ _ (fun _ => pairMem_of_ne) _ s (run_of_exec hs))

end Xv6.HistorySecrecy
