import Xv6.Proc

/-!
# The system-call history

`struct syscall_info`, the table `syscalls_history` of `proc.c` and the two functions that
write it, `set_last_syscall_info` and `register_syscall`, each of which runs under
`syscalls_history.lock`. The second half settles what the recorded entries are after any
sequence of calls of `register_syscall`: a sliding window up to the first compaction, and no
longer from there on.
-/

namespace Xv6

/-- `struct rtcdate`. -/
structure RtcDate where
  /-- Seconds. -/
  second : ℕ
  /-- Minutes. -/
  minute : ℕ
  /-- Hours. -/
  hour : ℕ
  /-- Day of the month. -/
  day : ℕ
  /-- Month. -/
  month : ℕ
  /-- Year. -/
  year : ℕ
  deriving DecidableEq

/-- What one call of `register_syscall` records: its arguments and the date it reads. -/
structure Call where
  /-- The argument `pid`. -/
  pid : ℤ
  /-- The argument `id`, the number of the system call. -/
  id : ℕ
  /-- The argument `name`. -/
  name : String
  /-- The date `cmostime` returned. -/
  date : RtcDate
  deriving DecidableEq

/-- A row of `args`: `char [10]`. -/
abbrev ArgRow := Fin 10 → UInt8

/-- `struct syscall_info`; the fields `name`, `id`, `pid` and `date` are grouped. -/
structure SyscallInfo where
  /-- `name`, `id`, `pid` and `date`. -/
  call : Call
  /-- `args`. -/
  args : Fin 10 → ArgRow
  /-- `args_c`. -/
  argsC : ℕ

/-- `syscalls_history.sf`, `rscount` and `tscount`. Only the indices below `RSCOUNTMAX`
belong to the array. -/
structure SyscallsHistory where
  /-- The entries. -/
  sf : ℕ → SyscallInfo
  /-- The number of recorded calls, and the index of the next entry. -/
  rscount : ℕ
  /-- The number of all calls. -/
  tscount : ℕ

/-- An entry of zeroes. -/
def SyscallInfo.zero : SyscallInfo := ⟨⟨0, 0, "", ⟨0, 0, 0, 0, 0, 0⟩⟩, fun _ _ => 0, 0⟩

namespace SyscallsHistory

/-- The history after `pinit`. -/
def init : SyscallsHistory := ⟨fun _ => .zero, 0, 0⟩

/-- Change one entry. -/
def modify (h : SyscallsHistory) (i : ℕ) (f : SyscallInfo → SyscallInfo) : SyscallsHistory :=
  { h with sf := fun j => if j = i then f (h.sf j) else h.sf j }

theorem modify_sf (h : SyscallsHistory) (i j : ℕ) (f : SyscallInfo → SyscallInfo) :
    (h.modify i f).sf j = if j = i then f (h.sf j) else h.sf j := rfl

/-- The rounds of the copying loop of `set_last_syscall_info`, which stops at a NUL and at
ten bytes. -/
def argLength (input : ℕ → UInt8) : ℕ := ((List.range 10).takeWhile fun i => input i != 0).length

/-- The row after the copying loop: the bytes after the copied ones stay, and no NUL is added. -/
def copyArg (input : ℕ → UInt8) (row : ArgRow) : ArgRow :=
  fun i => if i.val < argLength input then input i else row i

/-- `set_last_syscall_info`. The result is `none` when the loop would write outside of
`args`, which C leaves undefined. -/
def setLastSyscallInfo (h : SyscallsHistory) (input : ℕ → UInt8) : Option SyscallsHistory :=
  if hrow : (h.sf h.rscount).argsC < 10 then
    some <| h.modify h.rscount fun e =>
      { e with
        args := fun j =>
          if j = ⟨(h.sf h.rscount).argsC, hrow⟩ then copyArg input (e.args j) else e.args j
        argsC := e.argsC + 1 }
  else if argLength input = 0 then
    some <| h.modify h.rscount fun e => { e with argsC := e.argsC + 1 }
  else none

/-- `RSCOUNTMAX-RSCOUNTMAX/2`: what a compaction keeps, and how far it moves. -/
def keep : ℕ := rsCountMax - rsCountMax / 2

/-- The compaction of `register_syscall`: the first loop moves the newer entries down, the
second clears the argument counts above the new `rscount`. -/
def compact (h : SyscallsHistory) : SyscallsHistory :=
  let sf := (List.range keep).foldl (fun sf i j => if j = i then sf (i + keep) else sf j) h.sf
  let rscount := keep + 1
  { h with
    sf := fun i => if rscount + 1 ≤ i ∧ i < rsCountMax then { sf i with argsC := 0 } else sf i
    rscount := rscount }

/-- `register_syscall`, its effect on the history. -/
def register (h : SyscallsHistory) (c : Call) : SyscallsHistory :=
  let h := h.modify h.rscount fun e => { e with call := c }
  let h := { h with rscount := h.rscount + 1, tscount := h.tscount + 1 }
  if rsCountMax ≤ h.rscount then h.compact else h

/-- The calls the entries `sf[0 .. rscount)` record. -/
def recorded (h : SyscallsHistory) : List Call := (List.range h.rscount).map fun i => (h.sf i).call

end SyscallsHistory

/-- `syscall_count[id]++`. The array has `MAXSYSCALL` entries and the `int` laid out after it
is `ticket`; no larger index is ever dispatched. -/
def Proc.incrCount (p : Proc) (id : ℕ) : Proc :=
  if hid : id < maxSyscall then
    { p with
      syscallCount := fun j =>
        if j = ⟨id, hid⟩ then wrapInt (p.syscallCount j + 1) else p.syscallCount j }
  else if id = maxSyscall then { p with ticket := wrapInt (p.ticket + 1) }
  else p

/-- `register_syscall`, its effect on the process table: the first slot that carries `pid`
is charged. -/
def PTable.countSyscall (t : PTable) (pid : ℤ) (id : ℕ) : PTable :=
  match t.findSlot fun p => p.pid == pid with
  | some i => t.modify i fun p => p.incrCount id
  | none => t

/-- `register_syscall` on the history and the process table, which it changes in disjoint
places. -/
def registerSyscall (k : SyscallsHistory × PTable) (c : Call) : SyscallsHistory × PTable :=
  (k.1.register c, k.2.countSyscall c.pid c.id)

/-! ## The entries after one call -/

namespace SyscallsHistory

/-- Copying an array down by `m` from index 0 on, `n ≤ m` entries of it. No round reads an
entry that an earlier round wrote. -/
theorem foldl_shift {α : Type*} (f : ℕ → α) {n m : ℕ} (hn : n ≤ m) (j : ℕ) :
    (List.range n).foldl (fun f i j => if j = i then f (i + m) else f j) f j =
      if j < n then f (j + m) else f j := by
  induction n generalizing j with
  | zero => simp
  | succ n ih =>
    have hread : ¬ n + m < n := by omega
    rw [List.range_succ, List.foldl_append]
    simp only [List.foldl_cons, List.foldl_nil, ih (by omega), if_neg hread]
    rcases lt_trichotomy j n with hj | rfl | hj
    · simp [hj.ne, hj, Nat.lt_succ_of_lt hj]
    · simp
    · simp [hj.ne', show ¬ j < n by omega, show ¬ j < n + 1 by omega]

/-- After a compaction the entries below `keep` are the upper half of the array, those
below `keep + 2` are otherwise untouched, and all others have no arguments. -/
theorem compact_sf (h : SyscallsHistory) (i : ℕ) :
    h.compact.sf i =
      if i < keep then h.sf (i + keep)
      else if keep + 2 ≤ i ∧ i < rsCountMax then { h.sf i with argsC := 0 }
      else h.sf i := by
  unfold compact
  simp only [foldl_shift h.sf le_rfl, Nat.add_assoc, Nat.reduceAdd]
  by_cases hi : i < keep
  · simp [hi, show ¬ keep + 2 ≤ i by omega]
  · simp [hi]

/-- A compaction moves calls but changes none. -/
theorem compact_call (h : SyscallsHistory) (i : ℕ) :
    (h.compact.sf i).call = if i < keep then (h.sf (i + keep)).call else (h.sf i).call := by
  rw [compact_sf]
  split_ifs <;> rfl

/-- The next index after a call of `register_syscall`. -/
theorem register_rscount (h : SyscallsHistory) (c : Call) :
    (h.register c).rscount = if rsCountMax ≤ h.rscount + 1 then keep + 1 else h.rscount + 1 := by
  unfold register
  simp only [modify]
  split_ifs <;> rfl

/-- The recorded calls after a call of `register_syscall` that does not compact. -/
theorem register_call_of_lt {h : SyscallsHistory} (c : Call) (hroom : h.rscount + 1 < rsCountMax)
    (i : ℕ) : ((h.register c).sf i).call = if i = h.rscount then c else (h.sf i).call := by
  unfold register
  simp only [modify, if_neg (not_le.mpr hroom)]
  split_ifs <;> rfl

/-- The recorded calls after a call of `register_syscall` that compacts. -/
theorem register_call_of_le {h : SyscallsHistory} (c : Call) (hfull : rsCountMax ≤ h.rscount + 1)
    (i : ℕ) : ((h.register c).sf i).call =
      if i < keep then (if i + keep = h.rscount then c else (h.sf (i + keep)).call)
      else (if i = h.rscount then c else (h.sf i).call) := by
  unfold register
  simp only [modify, if_pos hfull, compact_call]
  split_ifs <;> rfl

/-! ## The entries after any sequence of calls -/

/-- What the history is after a sequence of calls: all of them in order before the first
compaction; from then on entry `keep` is the call that was recorded there before the first
compaction, because `rscount` restarts above it and no later compaction writes it. -/
structure Reached (h : SyscallsHistory) (calls : List Call) : Prop where
  /-- Before the first compaction nothing was dropped. -/
  filling : calls.length < rsCountMax →
    h.rscount = calls.length ∧ ∀ i < calls.length, calls[i]? = some (h.sf i).call
  /-- After it one entry is stale for good. -/
  stale : rsCountMax ≤ calls.length →
    keep < h.rscount ∧ h.rscount < rsCountMax ∧ calls[keep]? = some (h.sf keep).call

/-- One call of `register_syscall` keeps the description, with the call appended. -/
theorem Reached.register {h : SyscallsHistory} {calls : List Call} (hreached : h.Reached calls)
    (c : Call) : (h.register c).Reached (calls ++ [c]) := by
  have hmax : rsCountMax = 100 := rfl
  have hkeep : keep = 50 := rfl
  constructor
  · intro hlen
    rw [List.length_append, List.length_singleton] at hlen
    obtain ⟨hcount, hcalls⟩ := hreached.filling (by omega)
    refine ⟨by rw [register_rscount, if_neg (by omega), hcount]; simp, fun i hi => ?_⟩
    rw [List.length_append, List.length_singleton] at hi
    rw [register_call_of_lt c (by omega), hcount]
    by_cases hlast : i = calls.length
    · simp [hlast]
    · rw [if_neg hlast, List.getElem?_append_left (by omega)]
      exact hcalls i (by omega)
  · intro hlen
    rw [List.length_append, List.length_singleton] at hlen
    by_cases hfirst : calls.length < rsCountMax
    · -- the first compaction: entry `keep` is beyond the entries it writes
      obtain ⟨hcount, hcalls⟩ := hreached.filling hfirst
      rw [register_rscount, if_pos (by omega), register_call_of_le c (by omega), if_neg (by omega),
        if_neg (by omega), List.getElem?_append_left (by omega)]
      exact ⟨by omega, by omega, hcalls keep (by omega)⟩
    · obtain ⟨hlo, hhi, hcall⟩ := hreached.stale (by omega)
      rw [List.getElem?_append_left (by omega), hcall, register_rscount]
      by_cases hroom : h.rscount + 1 < rsCountMax
      · rw [if_neg (by omega), register_call_of_lt c hroom, if_neg (by omega)]
        exact ⟨by omega, hroom, rfl⟩
      · rw [if_pos (by omega), register_call_of_le c (by omega), if_neg (by omega),
          if_neg (by omega)]
        exact ⟨by omega, by omega, rfl⟩

/-- The history after a sequence of calls, starting from the empty one. -/
theorem reached_foldl (calls : List Call) : (calls.foldl register init).Reached calls := by
  induction calls using List.reverseRecOn with
  | nil => exact ⟨fun _ => ⟨rfl, by simp⟩, fun h => absurd h (by decide)⟩
  | append_singleton calls c ih =>
    rw [List.foldl_append]
    exact ih.register c

/-- The next index is in bounds after any sequence of calls. -/
theorem Reached.rscount_lt {h : SyscallsHistory} {calls : List Call} (hreached : h.Reached calls) :
    h.rscount < rsCountMax := by
  by_cases hlen : calls.length < rsCountMax
  · rw [(hreached.filling hlen).1]
    exact hlen
  · exact (hreached.stale (by omega)).2.1

/-- The entries are a sliding window: exactly the last `rscount` calls, oldest first. -/
def SlidingWindow (h : SyscallsHistory) (calls : List Call) : Prop :=
  h.recorded = calls.drop (calls.length - h.rscount)

/-- Before the first compaction all calls are recorded. -/
theorem Reached.slidingWindow {h : SyscallsHistory} {calls : List Call}
    (hreached : h.Reached calls) (hlen : calls.length < rsCountMax) : h.SlidingWindow calls := by
  obtain ⟨hcount, hcalls⟩ := hreached.filling hlen
  unfold SlidingWindow recorded
  rw [hcount, Nat.sub_self, List.drop_zero]
  apply List.ext_getElem?
  intro i
  by_cases hi : i < calls.length
  · rw [hcalls i hi]
    simp [hi]
  · simp [hi]

/-- After the first compaction entry `keep` is too old for a window, unless the sequence
repeats that call. -/
theorem Reached.not_slidingWindow {h : SyscallsHistory} {calls : List Call}
    (hreached : h.Reached calls) (hlen : rsCountMax ≤ calls.length) (hdistinct : calls.Nodup) :
    ¬ h.SlidingWindow calls := by
  intro hwindow
  obtain ⟨hlo, hhi, hcall⟩ := hreached.stale hlen
  have hentry : h.recorded[keep]? = some (h.sf keep).call := by simp [recorded, hlo]
  rw [SlidingWindow] at hwindow
  rw [hwindow, List.getElem?_drop, ← hcall] at hentry
  have hkeep : keep < calls.length := lt_of_lt_of_le (by decide) hlen
  have hindex := (List.getElem?_inj hkeep hdistinct).mp hentry.symm
  omega

end SyscallsHistory

/-- The calls of `register_syscall` in the order in which they take the lock, from the empty
history and any process table. -/
def registerAll (t : PTable) (calls : List Call) : SyscallsHistory × PTable :=
  calls.foldl registerSyscall (.init, t)

/-- The history does not depend on the process table. -/
theorem registerAll_history (t : PTable) (calls : List Call) :
    (registerAll t calls).1 = calls.foldl SyscallsHistory.register .init := by
  unfold registerAll
  generalize SyscallsHistory.init = h
  induction calls generalizing h t with
  | nil => rfl
  | cons c calls ih => exact ih _ _

/-- The window that `register_syscall` keeps: `rscount` stays in bounds after every sequence
of calls, the entries are the last `rscount` calls as long as fewer than `RSCOUNTMAX` calls
were made, and with distinguishable calls not one call longer. -/
theorem register_syscall_window (t : PTable) (calls : List Call) :
    (registerAll t calls).1.rscount < rsCountMax ∧
      (calls.length < rsCountMax → (registerAll t calls).1.SlidingWindow calls) ∧
      (calls.Nodup →
        ((registerAll t calls).1.SlidingWindow calls ↔ calls.length < rsCountMax)) := by
  rw [registerAll_history]
  have hreached := SyscallsHistory.reached_foldl calls
  refine ⟨hreached.rscount_lt, hreached.slidingWindow, fun hdistinct => ?_⟩
  refine ⟨fun hwindow => ?_, hreached.slidingWindow⟩
  by_contra hlen
  exact hreached.not_slidingWindow (by omega) hdistinct hwindow

/-- A process that calls `getpid` once a second, `n` times. -/
def getpidCalls (n : ℕ) : List Call :=
  (List.range n).map fun i => ⟨3, sysGetpid, "getpid", ⟨i % 60, i / 60 % 60, i / 3600, 1, 1, 2024⟩⟩

/-- A hundred `getpid` calls are not recorded as a sliding window: the compaction leaves the
51st of them behind the fifty newest. -/
theorem register_syscall_window_fails :
    ¬ (registerAll .zero (getpidCalls 100)).1.SlidingWindow (getpidCalls 100) := by
  rw [registerAll_history]
  apply (SyscallsHistory.reached_foldl _).not_slidingWindow
  · simp [getpidCalls, rsCountMax]
  · refine List.Nodup.map ?_ List.nodup_range
    intro i j hij
    have hdate := congrArg (fun c : Call => (c.date.second, c.date.minute, c.date.hour)) hij
    simp only [Prod.mk.injEq] at hdate
    omega

end Xv6
